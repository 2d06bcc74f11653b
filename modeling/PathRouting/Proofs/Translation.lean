import PathRouting.Proofs.Faults
import PathRouting.Proofs.Regex.Renaming

/-!
# Translating in one pass

A text can be translated to its rule and names in one pass over its characters. Literal characters
wait until something else is written, a colon looks ahead for its name, and what stays of the groups
is how many are open.

The pass does what a pass over the tokens does (`run_eq_foldlM`). A token writes its own rule behind
what is written and what waits (`written_put`), so the rule is that of the tokens, one after the
other (`of_translate_eq_ok`). The open groups and the wildcard decide the same faults as in reading
(`map_depth_foldlM`). So the pass gives the rule and the names of the pattern that the text reads as,
or the fault of the text (`translate_eq`), and texts that are not joined are translated one after the
other (`translate_append`).
-/

namespace PathRouting

/-- The rule and the names of a text. -/
structure Translation where
  rule : List Char
  names : List (List Char)
  deriving DecidableEq, Repr

/-- What has been translated: the rule that is written, the literal characters that wait to be
written, the names, how many groups are open, and whether there was a wildcard. -/
structure Translator where
  rule : List Char
  literal : List Char
  names : List (List Char)
  depth : Nat
  wildcard : Bool

namespace Translator

def start : Translator := ⟨[], [], [], 0, false⟩

/-- Writes the literal characters that wait. -/
def flush (t : Translator) : Translator :=
  if t.literal = [] then t
  else { t with rule := t.rule ++ t.literal.flatMap Pattern.escapeReserved, literal := [] }

/-- Writes a rule behind the literal characters that wait. -/
def write (t : Translator) (rule : List Char) : Translator :=
  { t.flush with rule := t.flush.rule ++ rule }

def putLiteral (t : Translator) (c : Char) : Translator :=
  { t with literal := t.literal ++ [c] }

def putSegment (t : Translator) (name : List Char) : Translator :=
  { t.write Pattern.segmentRule with names := t.names ++ [name] }

def putWildcard (t : Translator) : Except Fault Translator :=
  if t.wildcard then .error .multipleWildcards
  else .ok { t.write Pattern.wildcardRule with
    names := t.names ++ [Pattern.wildcardName], wildcard := true }

def openGroup (t : Translator) : Translator :=
  { t.write "(?:".toList with depth := t.depth + 1 }

def closeGroup (t : Translator) : Except Fault Translator :=
  if t.depth = 0 then .error .unbalancedGroup
  else .ok { t.write ")?".toList with depth := t.depth - 1 }

/-- A colon with the word behind it, which is literal if the word is empty. -/
def putColon (t : Translator) (word : List Char) : Translator :=
  if word = [] then t.putLiteral ':' else t.putSegment word

def finish (t : Translator) : Except Fault Translation :=
  if t.depth ≠ 0 then .error .unbalancedGroup
  else .ok ⟨'^' :: (t.flush.rule ++ (Pattern.queryRule ++ ['$'])), t.names⟩

end Translator

/-- Splits off the word characters that a text starts with. -/
def takeWord : List Char → List Char × List Char
  | [] => ([], [])
  | c :: text =>
    if Token.isWordChar c then (takeWord text).map (c :: ·) id else ([], c :: text)

theorem takeWord_eq (text : List Char) :
    takeWord text = (text.takeWhile Token.isWordChar, text.dropWhile Token.isWordChar) := by
  induction text with
  | nil => rfl
  | cons c text ih =>
    rw [takeWord, ih, List.takeWhile_cons, List.dropWhile_cons]
    split <;> rfl

theorem length_takeWord_le (text : List Char) : (takeWord text).2.length ≤ text.length := by
  rw [takeWord_eq]
  exact (List.dropWhile_suffix _).length_le

namespace Translator

/-- Translates the characters of a text. -/
def run (t : Translator) : List Char → Except Fault Translator
  | [] => .ok t
  | '(' :: text => t.openGroup.run text
  | ')' :: text => do (← t.closeGroup).run text
  | '*' :: text => do (← t.putWildcard).run text
  | ':' :: text => (t.putColon (takeWord text).1).run (takeWord text).2
  | c :: text => (t.putLiteral c).run text
termination_by text => text.length
decreasing_by
  all_goals simp only [List.length_cons]
  all_goals first | exact Nat.lt_succ_of_le (length_takeWord_le _) | omega

end Translator

/-- Translates a text in one pass. -/
def translate (text : List Char) : Except Fault Translation := do
  (← Translator.start.run text).finish

namespace Translator

/-- Translates a token. -/
def put (t : Translator) : Token → Except Fault Translator
  | .literal c => .ok (t.putLiteral c)
  | .segment name => .ok (t.putSegment name)
  | .wildcard => t.putWildcard
  | .opening => .ok t.openGroup
  | .closing => t.closeGroup

/-- The pass over a text is one over its tokens. -/
theorem run_eq_foldlM (t : Translator) (text : List Char) :
    t.run text = (Token.scan text).foldlM put t := by
  induction t, text using run.induct with
  | case1 t => rw [run]; rfl
  | case2 t text ih => rw [run, ih]; rfl
  | case3 t text ih =>
    rw [run]
    exact congrArg _ (funext ih)
  | case4 t text ih =>
    rw [run]
    exact congrArg _ (funext ih)
  | case5 t text ih =>
    rw [run, ih, takeWord_eq, Token.scan_colon, putColon]
    split
    · next h =>
      -- without a word the colon looked ahead and took nothing
      have hw : text.takeWhile Token.isWordChar = [] := h
      have hd := List.takeWhile_append_dropWhile (p := Token.isWordChar) (l := text)
      rw [hw, List.nil_append] at hd
      rw [hd]
      rfl
    · rfl
  | case6 t c text ho hc hs hn ih =>
    rw [run, ih, Token.scan_cons, Token.prepend_of_scanned ⟨hs, ho, hc⟩ hn]
    · rfl
    all_goals assumption

/-- The rule with the literal characters that wait. -/
def written (t : Translator) : List Char :=
  t.rule ++ t.literal.flatMap Pattern.escapeReserved

variable {t u : Translator} {token : Token} {tokens : List Token}

theorem flush_eq (t : Translator) : t.flush = { t with rule := t.written, literal := [] } := by
  obtain ⟨rule, literal, names, depth, wildcard⟩ := t
  unfold flush written
  split <;> simp_all

theorem write_eq (t : Translator) (rule : List Char) :
    t.write rule = { t with rule := t.written ++ rule, literal := [] } := by
  rw [write, flush_eq]

theorem written_write (t : Translator) (rule : List Char) :
    (t.write rule).written = t.written ++ rule := by
  rw [write_eq, written, List.flatMap_nil, List.append_nil]

/-- A token writes its rule behind what is written and what waits, and adds its name. -/
theorem written_put (h : t.put token = .ok u) :
    u.written = t.written ++ token.rule ∧ u.names = t.names ++ Token.names [token] := by
  cases token with
  | literal c => cases h; simp [putLiteral, written, Token.rule]
  | segment name => cases h; exact ⟨written_write t _, rfl⟩
  | wildcard =>
    rw [put, putWildcard] at h
    split at h <;> cases h
    exact ⟨written_write t _, rfl⟩
  | opening => cases h; exact ⟨written_write t _, by simp [openGroup, write_eq]⟩
  | closing =>
    rw [put, closeGroup] at h
    split at h <;> cases h
    exact ⟨written_write t _, by simp [write_eq]⟩

/-- Tokens write their rules and add their names one after the other. -/
theorem written_foldlM (h : tokens.foldlM put t = .ok u) :
    u.written = t.written ++ tokens.flatMap Token.rule ∧
      u.names = t.names ++ Token.names tokens := by
  induction tokens generalizing t with
  | nil =>
    cases h
    simp
  | cons token tokens ih =>
    rw [List.foldlM_cons] at h
    cases hp : t.put token with
    | error fault =>
      rw [hp] at h
      cases h
    | ok v =>
      rw [hp] at h
      obtain ⟨hw, hn⟩ := written_put hp
      obtain ⟨hw', hn'⟩ := ih h
      rw [hw', hw, hn', hn, List.flatMap_cons, List.append_assoc, List.append_assoc]
      exact ⟨rfl, by simp⟩

/-- The open groups and the faults are those of the tokens. -/
theorem map_depth_foldlM (t : Translator) (tokens : List Token) :
    (tokens.foldlM put t).map depth = Token.nesting t.depth t.wildcard tokens := by
  induction tokens generalizing t with
  | nil => rfl
  | cons token tokens ih =>
    rw [List.foldlM_cons]
    cases token with
    | literal c => exact ih _
    | segment name =>
      exact (ih _).trans (by rw [putSegment, write_eq]; rfl)
    | wildcard =>
      rw [put, putWildcard, write_eq, Token.nesting]
      split
      · rfl
      · exact ih _
    | opening => exact (ih _).trans (by rw [openGroup, write_eq]; rfl)
    | closing =>
      obtain ⟨rule, literal, names, _ | depth, wildcard⟩ := t
      · rfl
      · rw [put, closeGroup, write_eq]
        exact ih _

end Translator

/-- The whole rule around the rule of the tokens: between the start and the query. -/
def framed (body : List Char) : List Char :=
  '^' :: (body ++ (Pattern.queryRule ++ ['$']))

theorem framed_injective : Function.Injective framed := by
  intro s t h
  exact List.append_cancel_right (List.cons.inj h).2

variable {text : List Char} {r : Translation}

/-- What a text is translated to has one rule for each of its tokens, and their names. -/
theorem of_translate_eq_ok (h : translate text = .ok r) :
    r = ⟨framed ((Token.scan text).flatMap Token.rule), Token.names (Token.scan text)⟩ := by
  rw [translate, Translator.run_eq_foldlM] at h
  cases ht : (Token.scan text).foldlM Translator.put Translator.start with
  | error fault =>
    rw [ht] at h
    cases h
  | ok t =>
    rw [ht] at h
    obtain ⟨hw, hn⟩ := Translator.written_foldlM ht
    change t.finish = _ at h
    rw [Translator.finish, Translator.flush_eq, hw, hn] at h
    split at h <;> cases h
    rfl

/-- A text is translated if it is read, and has the same fault else. -/
theorem map_translate (text : List Char) :
    (translate text).map (fun _ => ()) = Pattern.verdict text := by
  rw [Pattern.verdict_eq, translate, Translator.run_eq_foldlM]
  have hd := Translator.map_depth_foldlM .start (Token.scan text)
  change _ = Token.nesting 0 false _ at hd
  rw [← hd]
  rcases (Token.scan text).foldlM Translator.put Translator.start with fault | t
  · rfl
  · obtain ⟨rule, literal, names, _ | depth, wildcard⟩ := t <;> rfl

/-- The one pass gives the rule and the names of the pattern that is read. -/
theorem translate_eq (text : List Char) :
    translate text = (Pattern.ofText text).map fun p => ⟨p.rule, p.names⟩ := by
  have hv := map_translate text
  rw [Pattern.verdict] at hv
  cases ht : translate text with
  | error fault =>
    rw [ht] at hv
    cases hp : Pattern.ofText text <;> rw [hp] at hv <;> cases hv
    rfl
  | ok r =>
    rw [ht] at hv
    cases hp : Pattern.ofText text with
    | error fault =>
      rw [hp] at hv
      cases hv
    | ok p =>
      rw [of_translate_eq_ok ht, Except.map, Pattern.rule, Pattern.names,
        Pattern.tokens_of_ofText hp]
      rfl

theorem exists_translate_iff :
    (∃ r, translate text = .ok r) ↔ Balanced text ∧ text.count '*' ≤ 1 := by
  rw [← Pattern.exists_ofText_iff, translate_eq]
  cases Pattern.ofText text <;> simp [Except.map]

theorem Balanced.append {s t : List Char} (hs : Balanced s) (ht : Balanced t) :
    Balanced (s ++ t) := by
  refine ⟨?_, by simp [hs.eq, ht.eq]⟩
  rintro u ⟨v, hv⟩
  rcases List.append_eq_append_iff.1 hv with ⟨w, rfl, -⟩ | ⟨w, rfl, hw⟩
  · exact hs.le u ⟨w, rfl⟩
  · have hl := ht.le w ⟨v, hw.symm⟩
    have := hs.eq
    simp only [List.count_append]
    omega

/-- Texts that are not joined are translated one after the other. -/
theorem translate_append {s t : List Char} {rs rt : Translation} (hs : translate s = .ok rs)
    (ht : translate t = .ok rt) (hc : (s ++ t).count '*' ≤ 1) (hj : Token.joins s t = false)
    {bodyS bodyT : List Char} (hbs : rs.rule = framed bodyS) (hbt : rt.rule = framed bodyT) :
    translate (s ++ t) = .ok ⟨framed (bodyS ++ bodyT), rs.names ++ rt.names⟩ := by
  obtain ⟨r, hr⟩ := exists_translate_iff.2
    ⟨(exists_translate_iff.1 ⟨rs, hs⟩).1.append (exists_translate_iff.1 ⟨rt, ht⟩).1, hc⟩
  have hes := of_translate_eq_ok hs
  have het := of_translate_eq_ok ht
  rw [hes] at hbs
  rw [het] at hbt
  rw [hr, of_translate_eq_ok hr, Token.scan_append hj, List.flatMap_append,
    framed_injective hbs, framed_injective hbt, hes, het]
  simp

/-- Translating a text in one pass gives the rule and the names of the pattern it reads as, or its
fault. They are those of its tokens, which are the only ones that stand apart and have this text. So
texts that have one wildcard together and are not joined are translated one after the other. -/
theorem translation_by_tokens :
    (∀ text, translate text = (Pattern.ofText text).map fun p => ⟨p.rule, p.names⟩) ∧
    (∀ text r, translate text = .ok r →
      r.rule = framed ((Token.scan text).flatMap Token.rule) ∧
      r.names = Token.names (Token.scan text)) ∧
    (∀ text tokens, (Token.Apart tokens ∧ tokens.flatMap Token.source = text) ↔
      tokens = Token.scan text) ∧
    ∀ s t rs rt, translate s = .ok rs → translate t = .ok rt → (s ++ t).count '*' ≤ 1 →
      Token.joins s t = false →
      ∀ bodyS bodyT, rs.rule = framed bodyS → rt.rule = framed bodyT →
        translate (s ++ t) = .ok ⟨framed (bodyS ++ bodyT), rs.names ++ rt.names⟩ := by
  refine ⟨translate_eq, fun text r h => ?_, fun text tokens => ⟨?_, ?_⟩,
    fun s t rs rt hs ht hc hj bodyS bodyT => translate_append hs ht hc hj⟩
  · rw [of_translate_eq_ok h]
    exact ⟨rfl, rfl⟩
  · rintro ⟨ha, rfl⟩
    exact (Token.scan_flatMap_source ha).symm
  · rintro rfl
    exact ⟨Token.apart_scan text, Token.flatMap_source_scan text⟩

theorem translation_by_tokens_colons :
    translate "/v1.0(:a)::".toList =
        .ok ⟨framed "/v1\\.0(?:([^/?]+))?::".toList, ["a".toList]⟩ ∧
      translate "(:b)::c*".toList =
        .ok ⟨framed "(?:([^/?]+))?:([^/?]+)([\\s\\S]+)".toList,
          ["b".toList, "c".toList, "path".toList]⟩ ∧
      Token.names (Token.scan "(:b)::c*".toList) = ["b".toList, "c".toList, "path".toList] ∧
      Token.joins "/v1.0(:a)::".toList "(:b)::c*".toList = false ∧
      translate ("/v1.0(:a)::".toList ++ "(:b)::c*".toList) =
        .ok ⟨framed ("/v1\\.0(?:([^/?]+))?::".toList ++
            "(?:([^/?]+))?:([^/?]+)([\\s\\S]+)".toList),
          ["a".toList, "b".toList, "c".toList, "path".toList]⟩ := by
  obtain ⟨hp, hr, -, ha⟩ := translation_by_tokens
  have hs : translate "/v1.0(:a)::".toList =
      .ok ⟨framed "/v1\\.0(?:([^/?]+))?::".toList, ["a".toList]⟩ := (hp _).trans (by decide)
  have ht : translate "(:b)::c*".toList =
      .ok ⟨framed "(?:([^/?]+))?:([^/?]+)([\\s\\S]+)".toList,
        ["b".toList, "c".toList, "path".toList]⟩ := (hp _).trans (by decide)
  have hj : Token.joins "/v1.0(:a)::".toList "(:b)::c*".toList = false := by decide
  exact ⟨hs, ht, (hr _ _ ht).2.symm, hj, ha _ _ _ _ hs ht (by decide) hj _ _ rfl rfl⟩

end PathRouting
