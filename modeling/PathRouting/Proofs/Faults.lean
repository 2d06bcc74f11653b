import Mathlib.Data.List.Infix
import PathRouting.Proofs.Parse

/-!
# The first bad prefix decides the fault

A text is read as long as no prefix of it closes a group that is not open or has two wildcards. The
first prefix that does decides the fault (`decided_nesting`), and a group that is still open is one
only where there is none. What reading keeps comes down to the number of open groups and to whether
there was a wildcard (`map_pushAll`), and of the characters only parentheses and stars change that
(`nesting_prepend`), since no name that a colon takes up has one of them.

Compiling reports a fault before it looks at the size of a pattern, so a refusal is met only by a
text without faults.
-/

namespace PathRouting

/-- No prefix of the text closes more groups than it opens, and all of them are closed. -/
structure Balanced (text : List Char) : Prop where
  le : ∀ s, s <+: text → s.count ')' ≤ s.count '('
  eq : text.count '(' = text.count ')'

def overclosed (text : List Char) : Bool :=
  text.count '(' < text.count ')'

def overstarred (text : List Char) : Bool :=
  1 < text.count '*'

/-- The position of the character that makes the first prefix bad, or the length. -/
def firstBad (bad : List Char → Bool) (text : List Char) : Nat :=
  text.inits.tail.findIdx bad

/-- The position of the first parenthesis that closes a group that is not open, or the length. -/
def firstOverclosed (text : List Char) : Nat :=
  firstBad overclosed text

/-- The position of the second star, or the length. -/
def secondStar (text : List Char) : Nat :=
  firstBad overstarred text

/-- Whether a character opens or closes a group or is a wildcard. -/
def isDelimiter (c : Char) : Bool :=
  c = '(' || c = ')' || c = '*'

section FirstBad

variable {bad : List Char → Bool} {text : List Char}

theorem firstBad_cons (bad : List Char → Bool) (c : Char) (text : List Char) :
    firstBad bad (c :: text) =
      if bad [c] then 0 else firstBad (fun s => bad (c :: s)) text + 1 := by
  have hi : text.inits = [] :: text.inits.tail := by cases text <;> simp
  rw [firstBad, firstBad, List.inits_cons, List.tail_cons, List.findIdx_map, hi,
    List.findIdx_cons]
  cases h : bad [c] <;> simp [h, Function.comp_def]

theorem firstBad_eq_length_iff :
    firstBad bad text = text.length ↔ ∀ s, s <+: text → s ≠ [] → bad s = false := by
  induction text generalizing bad with
  | nil => simp [firstBad]
  | cons c text ih =>
    rw [firstBad_cons, List.length_cons]
    constructor
    · intro h s hs hne
      split at h
      · omega
      · next hc =>
        rcases List.prefix_cons_iff.1 hs with rfl | ⟨s, rfl, ht⟩
        · exact absurd rfl hne
        · by_cases hn : s = []
          · subst hn
            simpa using hc
          · exact ih.1 (Nat.succ.inj h) s ht hn
    · intro h
      have hc : bad [c] = false := h [c] (by simp) (by simp)
      have ht : firstBad (fun s => bad (c :: s)) text = text.length :=
        ih.2 fun s hs _ => h (c :: s) (by simpa using hs) (by simp)
      simp [hc, ht]

end FirstBad

namespace Token

/-- How many groups are open behind tokens, if nothing is wrong with them, where `depth` groups are
open before them. -/
def nesting (depth : Nat) (starred : Bool) : List Token → Except Fault Nat
  | [] => .ok depth
  | opening :: tokens => nesting (depth + 1) starred tokens
  | closing :: tokens =>
    match depth with
    | 0 => .error .unbalancedGroup
    | depth + 1 => nesting depth starred tokens
  | wildcard :: tokens =>
    if starred then .error .multipleWildcards else nesting depth true tokens
  | _ :: tokens => nesting depth starred tokens

theorem nesting_dropWhile (depth : Nat) (starred : Bool) (tokens : List Token) :
    nesting depth starred (tokens.dropWhile isWord) = nesting depth starred tokens := by
  induction tokens with
  | nil => rfl
  | cons t tokens ih =>
    rw [List.dropWhile_cons]
    split
    · next ht =>
      cases t with
      | literal c => exact ih
      | _ => cases ht
    · rfl

/-- A character that is no delimiter changes nothing about the groups, also where it is a colon that
takes up a name. -/
theorem nesting_prepend {c : Char} (h : isDelimiter c = false) (depth : Nat) (starred : Bool)
    (tokens : List Token) :
    nesting depth starred (prepend c tokens) = nesting depth starred tokens := by
  unfold prepend
  split
  · unfold colon
    split
    · rfl
    · exact nesting_dropWhile depth starred tokens
  · cases h
  · cases h
  · cases h
  · rfl

theorem nesting_scan_filter (depth : Nat) (starred : Bool) (text : List Char) :
    nesting depth starred (scan (text.filter isDelimiter)) = nesting depth starred (scan text) := by
  induction text generalizing depth starred with
  | nil => rfl
  | cons c text ih =>
    rw [List.filter_cons]
    split
    · next hc =>
      simp only [isDelimiter, Bool.or_eq_true, decide_eq_true_eq, or_assoc] at hc
      rcases hc with rfl | rfl | rfl
      · exact ih (depth + 1) starred
      · cases depth with
        | zero => rfl
        | succ depth => exact ih depth starred
      · cases starred with
        | false => exact ih depth true
        | true => rfl
    · next hc => rw [scan_cons, nesting_prepend (by simpa using hc), ih]

/-- The result of reading a text behind `before` is decided by the first bad prefix. -/
structure Decided (before text : List Char) (result : Except Fault Nat) : Prop where
  unbalanced : firstBad (fun s => overclosed (before ++ s)) text <
    firstBad (fun s => overstarred (before ++ s)) text → result = .error .unbalancedGroup
  starred : firstBad (fun s => overstarred (before ++ s)) text <
    firstBad (fun s => overclosed (before ++ s)) text → result = .error .multipleWildcards
  done : firstBad (fun s => overclosed (before ++ s)) text =
    firstBad (fun s => overstarred (before ++ s)) text →
      firstBad (fun s => overclosed (before ++ s)) text = text.length ∧
        ∃ depth, result = .ok depth ∧
          depth + (before ++ text).count ')' = (before ++ text).count '('

/-- A character that makes no prefix bad moves both positions. -/
theorem Decided.cons {before text : List Char} {c : Char} {result : Except Fault Nat}
    (h : Decided (before ++ [c]) text result) (hover : overclosed (before ++ [c]) = false)
    (hstar : overstarred (before ++ [c]) = false) : Decided before (c :: text) result := by
  obtain ⟨hu, hs, hd⟩ := h
  simp only [List.append_assoc, List.singleton_append] at hu hs hd
  constructor
  all_goals
    simp only [firstBad_cons, hover, hstar, Bool.false_eq_true, if_false, List.length_cons]
  · exact fun hlt => hu (Nat.lt_of_succ_lt_succ hlt)
  · exact fun hlt => hs (Nat.lt_of_succ_lt_succ hlt)
  · exact fun heq => (hd (Nat.succ.inj heq)).imp_left (congrArg Nat.succ)

theorem overclosed_eq_false {s : List Char} {depth : Nat}
    (h : depth + s.count ')' = s.count '(') : overclosed s = false :=
  decide_eq_false (by omega)

theorem overstarred_eq_false {s : List Char} {starred : Bool} (h : s.count '*' = starred.toNat) :
    overstarred s = false :=
  decide_eq_false (by cases starred <;> simp [h])

/-- The first bad prefix decides, where `depth` groups of those before the text are open. -/
theorem decided_nesting (text : List Char) {before : List Char} {depth : Nat} {starred : Bool}
    (hd : depth + before.count ')' = before.count '(') (hs : before.count '*' = starred.toNat) :
    Decided before text (nesting depth starred (scan text)) := by
  induction text generalizing before depth starred with
  | nil => exact ⟨nofun, nofun, fun _ => ⟨rfl, depth, rfl, by simpa using hd⟩⟩
  | cons c text ih =>
    have hstep : ∀ (depth' : Nat) (starred' : Bool),
        depth' + (before ++ [c]).count ')' = (before ++ [c]).count '(' →
        (before ++ [c]).count '*' = starred'.toNat →
        Decided before (c :: text) (nesting depth' starred' (scan text)) := fun _ _ hd' hs' =>
      (ih hd' hs').cons (overclosed_eq_false hd') (overstarred_eq_false hs')
    -- Only a parenthesis that closes nothing and a second star make the prefix bad.
    by_cases hc : isDelimiter c = true
    · simp only [isDelimiter, Bool.or_eq_true, decide_eq_true_eq, or_assoc] at hc
      rcases hc with rfl | rfl | rfl
      · exact hstep (depth + 1) starred (by simp; omega) (by simpa using hs)
      · cases depth with
        | zero =>
          have hover : overclosed (before ++ [')']) = true := decide_eq_true (by simp; omega)
          have hstar : overstarred (before ++ [')']) = false :=
            overstarred_eq_false (by simpa using hs)
          constructor <;> simp [firstBad_cons, hover, hstar, nesting, prepend]
        | succ depth => exact hstep depth starred (by simp; omega) (by simpa using hs)
      · cases starred with
        | false => exact hstep depth true (by simpa using hd) (by simp [hs])
        | true =>
          have hover : overclosed (before ++ ['*']) = false :=
            overclosed_eq_false (by simpa using hd)
          have hstar : overstarred (before ++ ['*']) = true := decide_eq_true (by simp [hs])
          constructor <;> simp [firstBad_cons, hover, hstar, nesting, prepend]
    · have hn : isDelimiter c = false := by simpa using hc
      simp only [isDelimiter, Bool.or_eq_true, decide_eq_true_eq, not_or] at hc
      rw [scan_cons, nesting_prepend hn]
      exact hstep depth starred (by simpa [hc] using hd) (by simpa [hc] using hs)

end Token

namespace Pattern

/-- Reading tokens comes down to the number of open groups. -/
theorem map_pushAll : ∀ (tokens : List Token) (d : Draft),
    (d.pushAll tokens).map (fun e => e.outer.length) =
      Token.nesting d.outer.length d.starred tokens
  | [], _ => rfl
  | token :: tokens, ⟨outer, current, starred⟩ => by
    have ih := map_pushAll tokens
    cases token with
    | literal c => exact ih ⟨outer, current.literal c, starred⟩
    | segment name => exact ih ⟨outer, current.segment name, starred⟩
    | wildcard =>
      cases starred with
      | false => exact ih ⟨outer, current.wildcard, true⟩
      | true => rfl
    | opening => exact ih ⟨current :: outer, empty, starred⟩
    | closing =>
      cases outer with
      | nil => rfl
      | cons before outer => exact ih ⟨outer, before.group current, starred⟩

/-- Whether a text is read, or its fault. -/
def verdict (text : List Char) : Except Fault Unit :=
  (ofText text).map fun _ => ()

theorem verdict_eq (text : List Char) :
    verdict text =
      match Token.nesting 0 false (Token.scan text) with
      | .ok 0 => .ok ()
      | .ok (_ + 1) => .error .unbalancedGroup
      | .error fault => .error fault := by
  have hn : _ = Token.nesting 0 false _ := map_pushAll (Token.scan text) Draft.start
  rw [← hn, verdict, ofText, parse]
  rcases Draft.start.pushAll (Token.scan text) with fault | ⟨_ | ⟨before, outer⟩, current, starred⟩
  all_goals rfl

theorem verdict_filter (text : List Char) : verdict (text.filter isDelimiter) = verdict text := by
  rw [verdict_eq, verdict_eq, Token.nesting_scan_filter]

section

variable {text : List Char}

theorem ofText_eq_error_iff {fault : Fault} :
    ofText text = .error fault ↔ verdict text = .error fault := by
  rw [verdict]
  cases ofText text <;> simp [Except.map]

theorem exists_ofText_eq_ok_iff : (∃ p, ofText text = .ok p) ↔ verdict text = .ok () := by
  rw [verdict]
  cases ofText text <;> simp [Except.map]

theorem decided (text : List Char) :
    Token.Decided [] text (Token.nesting 0 false (Token.scan text)) :=
  Token.decided_nesting text rfl rfl

theorem ofText_of_firstOverclosed_lt (h : firstOverclosed text < secondStar text) :
    ofText text = .error .unbalancedGroup := by
  rw [ofText_eq_error_iff, verdict_eq, (decided text).unbalanced h]

theorem ofText_of_secondStar_lt (h : secondStar text < firstOverclosed text) :
    ofText text = .error .multipleWildcards := by
  rw [ofText_eq_error_iff, verdict_eq, (decided text).starred h]

/-- Where no prefix is bad, all that can be wrong is a group that is still open. -/
theorem verdict_of_eq (h : firstOverclosed text = secondStar text) :
    firstOverclosed text = text.length ∧
      verdict text = if text.count '(' = text.count ')' then .ok () else .error .unbalancedGroup := by
  obtain ⟨hi, depth, hn, hd⟩ := (decided text).done h
  refine ⟨hi, ?_⟩
  rw [List.nil_append] at hd
  rw [verdict_eq, hn]
  cases depth with
  | zero => rw [if_pos (by omega)]
  | succ depth => rw [if_neg (by omega)]

/-- A text reads as a pattern if its groups are balanced and there is at most one wildcard. -/
theorem exists_ofText_iff :
    (∃ p, ofText text = .ok p) ↔ Balanced text ∧ text.count '*' ≤ 1 := by
  constructor
  · intro ⟨p, hp⟩
    have heq : firstOverclosed text = secondStar text := by
      rcases Nat.lt_trichotomy (firstOverclosed text) (secondStar text) with hlt | heq | hlt
      · rw [ofText_of_firstOverclosed_lt hlt] at hp
        cases hp
      · exact heq
      · rw [ofText_of_secondStar_lt hlt] at hp
        cases hp
    obtain ⟨hi, hv⟩ := verdict_of_eq heq
    rw [exists_ofText_eq_ok_iff.1 ⟨p, hp⟩] at hv
    refine ⟨⟨fun s hs => ?_, ?_⟩, ?_⟩
    · by_cases hn : s = []
      · simp [hn]
      · simpa [overclosed] using firstBad_eq_length_iff.1 hi s hs hn
    · split at hv
      · assumption
      · cases hv
    · have hj : secondStar text = text.length := heq ▸ hi
      by_cases hn : text = []
      · simp [hn]
      · simpa [overstarred] using firstBad_eq_length_iff.1 hj text (List.prefix_refl text) hn
  · rintro ⟨hb, hs⟩
    have hi : firstOverclosed text = text.length :=
      firstBad_eq_length_iff.2 fun s hp _ => decide_eq_false (Nat.not_lt.2 (hb.le s hp))
    have hj : secondStar text = text.length :=
      firstBad_eq_length_iff.2 fun s hp _ =>
        decide_eq_false (Nat.not_lt.2 ((hp.sublist.count_le '*').trans hs))
    rw [exists_ofText_eq_ok_iff, (verdict_of_eq (hi.trans hj.symm)).2, if_pos hb.eq]

end

end Pattern

/-- The first bad prefix of a text decides its fault, and a group that is left open is one if there
is none; all characters but parentheses and stars are passed over. Compiling reports the fault with
the whole text, and refuses only what has none. -/
theorem fault_of_first_bad_prefix :
    (∀ text : List Char,
      ((∃ p, Pattern.ofText text = .ok p) ↔ Balanced text ∧ text.count '*' ≤ 1) ∧
      (firstOverclosed text < secondStar text →
        Pattern.ofText text = .error .unbalancedGroup) ∧
      (secondStar text < firstOverclosed text →
        Pattern.ofText text = .error .multipleWildcards) ∧
      (firstOverclosed text = secondStar text → firstOverclosed text = text.length ∧
        ∀ fault, Pattern.ofText text = .error fault → fault = .unbalancedGroup) ∧
      ∀ other : List Char, other.filter isDelimiter = text.filter isDelimiter →
        Pattern.verdict other = Pattern.verdict text) ∧
    ∀ source : String,
      (∀ fault, Pattern.ofText source.toList = .error fault →
        attempt source =
          (.error ⟨source, .fault fault⟩, .malformed ⟨source, .fault fault⟩)) ∧
      ∀ e, compile source = .error e → e.pattern = source ∧
        ((∃ fault, e.cause = .fault fault ∧ Pattern.ofText source.toList = .error fault) ∨
          ∃ refusal p, e.cause = .refusal refusal ∧ Pattern.ofText source.toList = .ok p ∧
            p.refusal? = some refusal) := by
  refine ⟨fun text => ⟨Pattern.exists_ofText_iff, Pattern.ofText_of_firstOverclosed_lt,
    Pattern.ofText_of_secondStar_lt, fun heq => ?_, fun other ho => ?_⟩, fun source => ⟨?_, ?_⟩⟩
  · obtain ⟨hi, hv⟩ := Pattern.verdict_of_eq heq
    refine ⟨hi, fun fault hf => ?_⟩
    rw [Pattern.ofText_eq_error_iff.1 hf] at hv
    split at hv
    · cases hv
    · exact Except.error.inj hv
  · rw [← Pattern.verdict_filter, ho, Pattern.verdict_filter]
  · intro fault hf
    rw [attempt, hf]
  · intro e he
    rw [compile, attempt] at he
    split at he
    · next fault hf =>
      cases he
      exact ⟨rfl, .inl ⟨fault, rfl, hf⟩⟩
    · next p hp =>
      dsimp only at he
      split at he
      · next refusal hr =>
        cases he
        exact ⟨rfl, .inr ⟨refusal, p, rfl, hp, hr⟩⟩
      · cases he

theorem fault_of_first_bad_prefix_star :
    firstOverclosed "/*:a(*))".toList = 7 ∧ secondStar "/*:a(*))".toList = 5 ∧
      Pattern.ofText "/*:a(*))".toList = .error .multipleWildcards ∧
      compile "/*:a(*))" = .error ⟨"/*:a(*))", .fault .multipleWildcards⟩ ∧
      Pattern.verdict "*(*))".toList = Pattern.verdict "/*:a(*))".toList := by
  obtain ⟨ht, hs⟩ := fault_of_first_bad_prefix
  have hf := (ht "/*:a(*))".toList).2.2.1 (by decide)
  refine ⟨by decide, by decide, hf, ?_, (ht _).2.2.2.2 _ (by decide)⟩
  exact congrArg Prod.fst ((hs "/*:a(*))").1 _ hf)

end PathRouting
