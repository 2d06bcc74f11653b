import PathRouting.Proofs.Regex.Meaning
import PathRouting.Proofs.Scanning

/-!
# The rule and the names determine the pattern

A rule reads as one tree, and a tree has one pattern up to the names of its segments
(`unnamed_eq_of_rule_eq`). So patterns have one rule if and only if they differ in names alone, and
then each url matches both of them with the same groups. With the names the text itself is read back
from the rule (`recover?_rule`).
-/

namespace PathRouting

namespace Token

/-- The same token, where a segment may have another name. -/
inductive Renamed : Token → Token → Prop
  | segment (name : List Char) {other : List Char} (hne : other ≠ [])
    (hw : ∀ c ∈ other, isWordChar c = true) : Renamed (segment name) (segment other)
  | literal (c : Char) : Renamed (literal c) (literal c)
  | wildcard : Renamed wildcard wildcard
  | opening : Renamed opening opening
  | closing : Renamed closing closing

/-- The token without its name. -/
def unnamed : Token → Token
  | segment _ => segment []
  | t => t

variable {s t : Token} {tokens others : List Token}

theorem Renamed.isWord_eq (h : Renamed s t) : t.isWord = s.isWord := by
  cases h <;> rfl

theorem Renamed.takesWord_eq (h : Renamed s t) : t.takesWord = s.takesWord := by
  cases h <;> rfl

theorem Renamed.rule_eq (h : Renamed s t) : s.rule = t.rule := by
  cases h <;> rfl

theorem Renamed.scanned (h : Renamed s t) (hs : s.Scanned) : t.Scanned := by
  cases h with
  | segment name hne hw => exact ⟨hne, hw⟩
  | _ => exact hs

theorem renamed_of_unnamed_eq (h : s.unnamed = t.unnamed) (ht : t.Scanned) : Renamed s t := by
  cases s <;> cases t <;> cases h
  · exact .literal _
  · exact .segment _ ht.1 ht.2
  · exact .wildcard
  · exact .opening
  · exact .closing

/-- Other names take up nothing either. -/
theorem Apart.renamed (h : List.Forall₂ Renamed tokens others) (ha : Apart tokens) :
    Apart others := by
  induction h with
  | nil => trivial
  | cons ht htokens ih =>
    obtain ⟨hs, hw, ha⟩ := ha
    refine ⟨ht.scanned hs, fun hc => ?_, ih ha⟩
    have hn := hw (ht.takesWord_eq ▸ hc)
    cases htokens with
    | nil => rfl
    | cons hu _ =>
      rw [List.takeWhile_cons] at hn ⊢
      rw [hu.isWord_eq]
      split at hn
      · cases hn
      · next hf => rw [if_neg hf]

theorem flatMap_rule_eq (h : List.Forall₂ Renamed tokens others) :
    tokens.flatMap rule = others.flatMap rule := by
  induction h with
  | nil => rfl
  | cons ht _ ih => rw [List.flatMap_cons, List.flatMap_cons, ht.rule_eq, ih]

theorem renamed_of_map_unnamed_eq : ∀ {tokens others : List Token},
    tokens.map unnamed = others.map unnamed → Apart others → List.Forall₂ Renamed tokens others
  | [], [], _, _ => .nil
  | s :: tokens, t :: others, h, ha => by
    obtain ⟨ht, h⟩ := List.cons.inj h
    exact .cons (renamed_of_unnamed_eq ht ha.1) (renamed_of_map_unnamed_eq h ha.2.2)

end Token

namespace Pattern

/-- The pattern without the names of its segments. -/
def unnamed : Pattern → Pattern
  | empty => empty
  | literal before c => before.unnamed.literal c
  | segment before _ => before.unnamed.segment []
  | wildcard before => before.unnamed.wildcard
  | group before body => before.unnamed.group body.unnamed

theorem tokens_unnamed (p : Pattern) : p.unnamed.tokens = p.tokens.map Token.unnamed := by
  induction p with
  | empty => rfl
  | literal before c ih => simp [unnamed, ih, Token.unnamed]
  | segment before name ih => simp [unnamed, ih, Token.unnamed]
  | wildcard before ih => simp [unnamed, ih, Token.unnamed]
  | group before body ihb ih => simp [unnamed, ihb, ih, Token.unnamed]

end Pattern

/-- The pattern without names that a tree stands for. -/
def Regex.toPattern : Regex → Pattern
  | .char before c => before.toPattern.literal c
  | .capture before body =>
    if body = .many .empty .segment 1 then before.toPattern.segment []
    else before.toPattern.wildcard
  | .optional before body => before.toPattern.group body.toPattern
  | .finish (.optional before _) => before.toPattern
  | _ => .empty

namespace Pattern

theorem toPattern_regexOnto (p : Pattern) {r : Regex} (h : r.toPattern = .empty) :
    (p.regexOnto r).toPattern = p.unnamed := by
  induction p generalizing r with
  | empty => exact h
  | literal before c ih => rw [regexOnto, Regex.toPattern, ih h, unnamed]
  | segment before name ih => rw [regexOnto, Regex.toPattern, if_pos rfl, ih h, unnamed]
  | wildcard before ih =>
    rw [regexOnto, Regex.toPattern, if_neg (by decide), ih h, unnamed]
  | group before body ihb ih => rw [regexOnto, Regex.toPattern, ihb h, ih rfl, unnamed]

theorem regex_eq_of_rule_eq {p q : Pattern} (h : p.rule = q.rule) : p.regex = q.regex := by
  have hp := Regex.read?_rule p
  rw [h, Regex.read?_rule q] at hp
  exact (Option.some.inj hp).symm

theorem toPattern_regex (p : Pattern) : p.regex.toPattern = p.unnamed :=
  toPattern_regexOnto p rfl

/-- Patterns with one rule are the same up to names. -/
theorem unnamed_eq_of_rule_eq {p q : Pattern} (h : p.rule = q.rule) : p.unnamed = q.unnamed := by
  rw [← toPattern_regex, regex_eq_of_rule_eq h, toPattern_regex]

end Pattern

/-! ## Reading the text back -/

/-- Gives the parameters names, one after the other; a wildcard keeps its own. -/
def Token.withNames : List Token → List (List Char) → List Token
  | segment _ :: tokens, name :: names => segment name :: withNames tokens names
  | wildcard :: tokens, _ :: names => wildcard :: withNames tokens names
  | t :: tokens, names => t :: withNames tokens names
  | [], _ => []

theorem Token.withNames_unnamed : ∀ tokens : List Token,
    withNames (tokens.map unnamed) (names tokens) = tokens
  | [] => rfl
  | t :: tokens => by
    have ih := withNames_unnamed tokens
    cases t with
    | literal c => exact congrArg (literal c :: ·) ih
    | segment name => exact congrArg (segment name :: ·) ih
    | wildcard => exact congrArg (wildcard :: ·) ih
    | opening => exact congrArg (opening :: ·) ih
    | closing => exact congrArg (closing :: ·) ih

namespace Pattern

/-- The text with this rule and these names, if the rule can be read. -/
def recover? (rule : List Char) (names : List (List Char)) : Option (List Char) :=
  (Regex.read? rule).map fun r =>
    (Token.withNames r.toPattern.tokens names).flatMap Token.source

theorem recover?_rule {text : List Char} {p : Pattern} (h : ofText text = .ok p) :
    recover? p.rule p.names = some text := by
  rw [recover?, Regex.read?_rule, Option.map_some, toPattern_regex, tokens_unnamed, names,
    Token.withNames_unnamed, tokens_of_ofText h, Token.flatMap_source_scan]

end Pattern

/-! ## Names do not count for the limits -/

theorem Token.roomOnto_unnamed (tokens : List Token) (room : Nat) :
    roomOnto (tokens.map unnamed) room = roomOnto tokens room := by
  fun_induction roomOnto tokens room with
  | case1 => rfl
  | case2 _ _ _ ih => exact ih
  | case3 _ _ _ ih => exact ih
  | case4 _ _ ih => exact ih
  | case5 _ _ ih => exact ih
  | case6 tokens room hc ih =>
    change roomOnto (opening :: tokens.map unnamed) room = _
    rw [roomOnto, ih]
    rintro rest h
    obtain ⟨t, tokens, rfl, ht, -⟩ := List.map_eq_cons_iff.1 h
    cases t <;> cases ht
    exact hc tokens rfl
  | case7 _ _ ih => exact ih

namespace Pattern

theorem sequenceLevel_unnamed (p : Pattern) (level : Nat) :
    p.unnamed.sequenceLevel level = p.sequenceLevel level := by
  cases p with
  | empty => rfl
  | literal before c => cases before <;> rfl
  | segment before name => cases before <;> rfl
  | wildcard before => cases before <;> rfl
  | group before body => cases before <;> rfl

theorem staysWithin_unnamed (p : Pattern) (level : Nat) :
    p.unnamed.staysWithin level = p.staysWithin level := by
  induction p generalizing level with
  | empty => rfl
  | literal before c ih => exact ih level
  | segment before name ih => exact congrArg (_ && ·) (ih level)
  | wildcard before ih => exact congrArg (_ && ·) (ih level)
  | group before body ihb ih =>
    rw [unnamed, staysWithin, sequenceLevel_unnamed, ih, ihb, staysWithin]

theorem room_unnamed (p : Pattern) : p.unnamed.room = p.room := by
  rw [room, tokens_unnamed, Token.roomOnto_unnamed, room]

theorem refusal?_unnamed (p : Pattern) : p.unnamed.refusal? = p.refusal? := by
  rw [refusal?, staysWithin_unnamed, room_unnamed, refusal?]

end Pattern

/-! ## What patterns with one rule bind -/

/-- The values that groups give do not depend on the names. -/
theorem Found.map_snd_ofCaptures {names names' : List (List Char)}
    (h : names.length = names'.length) (captures : List (Option (List Char))) :
    (ofCaptures names captures).1.pairs.map Prod.snd =
      (ofCaptures names' captures).1.pairs.map Prod.snd := by
  have hb : ∀ (name : List Char) group, (bound? name group).map Prod.snd =
      (bound? [] group).map Prod.snd := by
    rintro name (_ | value)
    · rfl
    · simp only [bound?]
      split <;> rfl
  have hv : ∀ names : List (List Char), (ofCaptures names captures).1.pairs.map Prod.snd =
      (List.range' 0 names.length).filterMap fun i =>
        (bound? [] captures[i + 1]?.join).map Prod.snd := by
    intro names
    rw [ofCaptures, List.map_filterMap, ← List.zipIdx_map_snd, List.filterMap_map]
    exact congrArg (List.filterMap · _) (funext fun x => hb x.1 _)
  rw [hv, hv, h]

namespace Pattern

variable {source other : String} {p q : Pattern}

/-- Patterns have one rule if one text is the other with other names. -/
theorem rule_eq_iff (hs : ofText source.toList = .ok p) (ht : ofText other.toList = .ok q) :
    p.rule = q.rule ↔ ∃ tokens, List.Forall₂ Token.Renamed (Token.scan source.toList) tokens ∧
      other.toList = tokens.flatMap Token.source := by
  constructor
  · intro h
    refine ⟨Token.scan other.toList, ?_, (Token.flatMap_source_scan _).symm⟩
    refine Token.renamed_of_map_unnamed_eq ?_ (Token.apart_scan other.toList)
    rw [← tokens_of_ofText hs, ← tokens_of_ofText ht, ← tokens_unnamed, ← tokens_unnamed,
      unnamed_eq_of_rule_eq h]
  · rintro ⟨tokens, hr, he⟩
    have ha := (Token.apart_scan source.toList).renamed hr
    have hq : q.tokens = tokens := by rw [tokens_of_ofText ht, he, Token.scan_flatMap_source ha]
    rw [rule, rule, hq, tokens_of_ofText hs, Token.flatMap_rule_eq hr]

theorem length_names_eq (h : p.regex = q.regex) : p.names.length = q.names.length := by
  have hg := congrArg (fun r => r.groups.length) h
  simpa [groups_regex, names_eq_parameters] using hg

/-- A pattern with the rule of one that compiles does so too, and matches every url with the same
groups. -/
theorem compile_of_rule_eq (hs : ofText source.toList = .ok p) (ht : ofText other.toList = .ok q)
    (h : p.rule = q.rule) {c : Compiled} (hc : compile source = .ok c) :
    ∃ d, compile other = .ok d ∧ ∀ url : String, c.isMatch url = d.isMatch url ∧
      (c.captures url).map (fun params => params.pairs.map Prod.snd) =
        (d.captures url).map (fun params => params.pairs.map Prod.snd) ∧
      ∃ groups : Option (List (Option (List Char))),
        c.extract url.toList = groups.map (Found.ofCaptures p.names) ∧
        d.extract url.toList = groups.map (Found.ofCaptures q.names) := by
  have hr := regex_eq_of_rule_eq h
  obtain ⟨hn, rfl⟩ := (compile_eq_ok_iff hs).1 hc
  rw [← refusal?_unnamed, unnamed_eq_of_rule_eq h, refusal?_unnamed] at hn
  refine ⟨_, (compile_eq_ok_iff ht).2 ⟨hn, rfl⟩, fun url => ?_⟩
  have hx : (Compiled.ofPattern source p).extract url.toList =
      (p.regex.captures? Char.isWhitespace url.toList).map (Found.ofCaptures p.names) :=
    Compiled.extract_eq_captures? _ _ _
  have hy : (Compiled.ofPattern other q).extract url.toList =
      (p.regex.captures? Char.isWhitespace url.toList).map (Found.ofCaptures q.names) := by
    rw [hr]
    exact Compiled.extract_eq_captures? _ _ _
  refine ⟨?_, ?_, _, hx, hy⟩
  · rw [Compiled.isMatch_eq_isSome_captures, Compiled.isMatch_eq_isSome_captures, Compiled.captures,
      Compiled.captures, hx, hy]
    simp only [Option.isSome_map]
  · have hv := funext (Found.map_snd_ofCaptures (length_names_eq hr))
    rw [Compiled.captures, Compiled.captures, hx, hy]
    simp only [Option.map_map]
    exact congrArg (Option.map · _) hv

/-- Patterns have one rule if and only if their texts differ in the names of segments alone, and
then they match the same urls with the same groups; the rule and the names together have one text,
which is read back from them. -/
theorem rule_and_names_determine (hs : ofText source.toList = .ok p)
    (ht : ofText other.toList = .ok q) :
    (p.rule = q.rule ↔ ∃ tokens, List.Forall₂ Token.Renamed (Token.scan source.toList) tokens ∧
      other.toList = tokens.flatMap Token.source) ∧
    (p.rule = q.rule ∧ p.names = q.names ↔ source = other) ∧
    recover? p.rule p.names = some source.toList ∧
    (p.rule = q.rule → ∀ c, compile source = .ok c →
      ∃ d, compile other = .ok d ∧ ∀ url : String, c.isMatch url = d.isMatch url ∧
        (c.captures url).map (fun params => params.pairs.map Prod.snd) =
          (d.captures url).map (fun params => params.pairs.map Prod.snd) ∧
        ∃ groups : Option (List (Option (List Char))),
          c.extract url.toList = groups.map (Found.ofCaptures p.names) ∧
          d.extract url.toList = groups.map (Found.ofCaptures q.names)) := by
  refine ⟨rule_eq_iff hs ht, ⟨fun ⟨hr, hn⟩ => ?_, ?_⟩, recover?_rule hs,
    fun hr _ hc => compile_of_rule_eq hs ht hr hc⟩
  · have h := recover?_rule hs
    rw [hr, hn, recover?_rule ht, Option.some.injEq] at h
    exact (String.toList_inj.1 h).symm
  · rintro rfl
    rw [hs, Except.ok.injEq] at ht
    exact ⟨congrArg rule ht, congrArg names ht⟩

theorem rule_and_names_determine_renamed :
    ∃ p q, ofText "/:a(.:b*)".toList = .ok p ∧ ofText "/:x1(.:a*)".toList = .ok q ∧
      p.rule = q.rule ∧ p.names ≠ q.names ∧
      recover? p.rule p.names = some "/:a(.:b*)".toList ∧
      ∃ c d, compile "/:a(.:b*)" = .ok c ∧ compile "/:x1(.:a*)" = .ok d ∧
        c.isMatch "/u.v/w" = d.isMatch "/u.v/w" := by
  obtain ⟨p, hp⟩ : ∃ p, ofText "/:a(.:b*)".toList = .ok p := ⟨_, rfl⟩
  obtain ⟨q, hq⟩ : ∃ q, ofText "/:x1(.:a*)".toList = .ok q := ⟨_, rfl⟩
  obtain ⟨hr, hn, hrec, hc⟩ := rule_and_names_determine hp hq
  have hrule : p.rule = q.rule := by
    cases hp
    cases hq
    decide
  obtain ⟨d, hd, hm⟩ := hc hrule _ rfl
  exact ⟨p, q, hp, hq, hrule, fun h => absurd (hn.1 ⟨hrule, h⟩) (by decide), hrec, _, d, rfl, hd,
    (hm "/u.v/w").1⟩

end Pattern

end PathRouting
