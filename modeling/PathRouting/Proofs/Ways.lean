import PathRouting.Compiled.Exact
import PathRouting.Proofs.Derivation

/-!
# The ways of a pattern, in order

`Pattern.ways` lists every way in which the tokens of a pattern spell the front of a text, the best
first: the list holds just the ways that `Spells` allows (`lists_ways`), each comes before those
behind it (`ordered_ways`), and the search finds the first of them that what follows agrees to
(`answers_search`).

A list of ways is put together from those of single parts, one after the other (`Part.andThen`),
so each of the three facts is proved of each part and of `andThen`.
-/

namespace PathRouting

/-- The choices that are made, and what is left of the text. -/
structure Way where
  choices : List Choice
  rest : List Char
  deriving DecidableEq, Repr

/-- The ways of a part of a pattern to start at a text. -/
abbrev Part := List Char → List Way

namespace Part

def literal (c : Char) : Part
  | [] => []
  | x :: text => if x = c then [⟨[], text⟩] else []

/-- The splits of a text behind one or more allowed characters, the longest first. -/
def splits (allowed : Char → Bool) : List Char → List (List Char × List Char)
  | [] => []
  | c :: text =>
    if allowed c then (splits allowed text).map (fun s => (c :: s.1, s.2)) ++ [([c], text)] else []

theorem mem_splits {allowed : Char → Bool} :
    ∀ {text : List Char} {s : List Char × List Char}, s ∈ splits allowed text ↔
      s.1 ≠ [] ∧ (∀ c ∈ s.1, allowed c = true) ∧ text = s.1 ++ s.2
  | [], s => by
    simp only [splits, List.not_mem_nil, false_iff]
    rintro ⟨hne, -, h⟩
    exact hne (List.append_eq_nil_iff.1 h.symm).1
  | c :: text, ⟨value, rest⟩ => by
    simp only [splits]
    split
    · next hc =>
      simp only [List.mem_append, List.mem_map, List.mem_singleton]
      constructor
      · rintro (⟨s, hs, h⟩ | h)
        · cases h
          obtain ⟨-, hv, rfl⟩ := mem_splits.1 hs
          exact ⟨by simp, List.forall_mem_cons.2 ⟨hc, hv⟩, rfl⟩
        · cases h
          exact ⟨by simp, by simpa using hc, rfl⟩
      · rintro ⟨hne, hv, h⟩
        obtain ⟨x, value, rfl⟩ := List.exists_cons_of_ne_nil hne
        obtain ⟨rfl, rfl⟩ := List.cons.inj h
        by_cases hne' : value = []
        · subst hne'
          exact .inr rfl
        · have := mem_splits (s := (value, rest)).2 ⟨hne', (List.forall_mem_cons.1 hv).2, rfl⟩
          exact .inl ⟨_, this, rfl⟩
    · next hc =>
      simp only [List.not_mem_nil, false_iff]
      rintro ⟨hne, hv, h⟩
      obtain ⟨x, value, rfl⟩ := List.exists_cons_of_ne_nil hne
      obtain ⟨rfl, -⟩ := List.cons.inj h
      exact hc (hv c List.mem_cons_self)

def value (allowed : Char → Bool) (name : List Char) : Part :=
  fun text => (splits allowed text).map fun s => ⟨[.bind name s.1], s.2⟩

def group (body : Part) : Part :=
  fun text => (body text).map (fun w => ⟨.keep :: w.choices, w.rest⟩) ++ [⟨[.drop], text⟩]

def andThen (first second : Part) : Part :=
  fun text => (first text).flatMap fun w =>
    (second w.rest).map fun v => ⟨w.choices ++ v.choices, v.rest⟩

end Part

/-- Every way of a pattern, the best first. -/
def Pattern.ways : Pattern → Part
  | empty => fun text => [⟨[], text⟩]
  | literal before c => before.ways.andThen (.literal c)
  | segment before name => before.ways.andThen (.value isSegmentChar name)
  | wildcard before => before.ways.andThen (.value (fun _ => true) wildcardName)
  | group before body => before.ways.andThen (.group body.ways)

/-! ## The ways are those in which the tokens spell -/

namespace Part

/-- The part lists the ways in which the tokens spell the front of a text. -/
def Lists (part : Part) (tokens : List Token) : Prop :=
  ∀ text w, w ∈ part text ↔ ∃ path, text = path ++ w.rest ∧ Spells tokens w.choices path

theorem lists_empty : Lists (fun text => [⟨[], text⟩]) [] := by
  intro text w
  rw [List.mem_singleton]
  constructor
  · rintro rfl
    exact ⟨[], rfl, .nil⟩
  · obtain ⟨choices, rest⟩ := w
    rintro ⟨path, rfl, h⟩
    cases h
    rfl

theorem lists_literal (c : Char) : Lists (literal c) [.literal c] := by
  rintro text ⟨choices, rest⟩
  constructor
  · intro h
    cases text with
    | nil => cases h
    | cons x text =>
      simp only [literal] at h
      split at h
      · next hx =>
        subst hx
        cases List.mem_singleton.1 h
        exact ⟨[x], rfl, .literal x .nil⟩
      · cases h
  · rintro ⟨path, rfl, h⟩
    cases h with
    | literal _ h =>
      cases h
      simp [literal]

theorem lists_segment (name : List Char) :
    Lists (value isSegmentChar name) [.segment name] := by
  rintro text ⟨choices, rest⟩
  simp only [value, List.mem_map, mem_splits]
  constructor
  · rintro ⟨s, ⟨hne, hv, rfl⟩, h⟩
    cases h
    refine ⟨s.1, rfl, ?_⟩
    have hv' : ∀ c ∈ s.1, c ≠ '/' ∧ c ≠ '?' := fun c hc => by simpa [isSegmentChar] using hv c hc
    simpa using Spells.segment name hne hv' .nil
  · rintro ⟨path, rfl, h⟩
    cases h with
    | @segment _ v _ _ _ hne hv h =>
      cases h
      refine ⟨(v, rest), ⟨hne, fun c hc => ?_, by simp⟩, rfl⟩
      simpa [isSegmentChar] using hv c hc

theorem lists_wildcard :
    Lists (value (fun _ => true) Pattern.wildcardName) [.wildcard] := by
  rintro text ⟨choices, rest⟩
  simp only [value, List.mem_map, mem_splits]
  constructor
  · rintro ⟨s, ⟨hne, -, rfl⟩, h⟩
    cases h
    refine ⟨s.1, rfl, ?_⟩
    simpa using Spells.wildcard hne .nil
  · rintro ⟨path, rfl, h⟩
    cases h with
    | @wildcard v _ _ _ hne h =>
      cases h
      exact ⟨(v, rest), ⟨hne, fun _ _ => trivial, by simp⟩, rfl⟩

theorem Lists.group {body : Pattern} {part : Part} (h : part.Lists body.tokens) :
    (group part).Lists (.opening :: (body.tokens ++ [.closing])) := by
  rintro text ⟨choices, rest⟩
  simp only [Part.group, List.mem_append, List.mem_map, List.mem_singleton]
  constructor
  · rintro (⟨w, hw, hc⟩ | hc)
    · cases hc
      obtain ⟨path, rfl, hs⟩ := (h _ _).1 hw
      exact ⟨path, rfl, .keep (by simpa using hs.append (.closing .nil))⟩
    · cases hc
      exact ⟨[], rfl, .drop body .nil⟩
  · rintro ⟨path, rfl, hs⟩
    generalize hg : body.tokens ++ [Token.closing] = tokens at hs
    cases hs with
    | keep hs =>
      subst hg
      obtain ⟨a, _, u, _, rfl, rfl, ha, hc⟩ := Spells.split body hs
      cases hc with
      | closing hc =>
        cases hc
        exact .inl ⟨⟨a, rest⟩, (h _ _).2 ⟨u, by simp, ha⟩, by simp⟩
    | drop other hs =>
      obtain ⟨-, rfl⟩ := Token.tokens_closing_inj hg
      cases hs
      exact .inr rfl

theorem Lists.andThen {first second : Part} {p : Pattern} {tokens : List Token}
    (hf : first.Lists p.tokens) (hs : second.Lists tokens) :
    (first.andThen second).Lists (p.tokens ++ tokens) := by
  rintro text ⟨choices, rest⟩
  simp only [Part.andThen, List.mem_flatMap, List.mem_map]
  constructor
  · rintro ⟨w, hw, v, hv, h⟩
    cases h
    obtain ⟨path, rfl, hw'⟩ := (hf _ _).1 hw
    obtain ⟨path', hr, hv'⟩ := (hs _ _).1 hv
    exact ⟨path ++ path', by rw [hr, List.append_assoc], hw'.append hv'⟩
  · rintro ⟨path, rfl, h⟩
    obtain ⟨a, b, u, v, rfl, rfl, hw, hv⟩ := Spells.split p h
    refine ⟨⟨a, v ++ rest⟩, (hf _ _).2 ⟨u, by simp, hw⟩, ⟨b, rest⟩, (hs _ _).2 ⟨v, rfl, hv⟩, rfl⟩

end Part

/-- The ways of a pattern are those in which its tokens spell. -/
theorem Pattern.lists_ways (p : Pattern) : p.ways.Lists p.tokens := by
  induction p with
  | empty => exact Part.lists_empty
  | literal before c ih => rw [tokens_literal]; exact ih.andThen (Part.lists_literal c)
  | segment before name ih => rw [tokens_segment]; exact ih.andThen (Part.lists_segment name)
  | wildcard before ih => rw [tokens_wildcard]; exact ih.andThen Part.lists_wildcard
  | group before body ihb ih => rw [tokens_group]; exact ihb.andThen ih.group

/-! ## The order -/

namespace Part

/-- Each way comes before those behind it. -/
def Ordered (part : Part) : Prop :=
  ∀ text, (part text).Pairwise fun v w => Precedes v.choices w.choices

theorem ordered_literal (c : Char) : Ordered (literal c) := by
  intro text
  cases text with
  | nil => exact .nil
  | cons x text =>
    simp only [literal]
    split
    · exact List.pairwise_singleton _ _
    · exact .nil

theorem pairwise_splits (allowed : Char → Bool) :
    ∀ text, (splits allowed text).Pairwise fun s t => t.1.length < s.1.length
  | [] => .nil
  | c :: text => by
    simp only [splits]
    split
    · refine List.pairwise_append.2 ⟨?_, List.pairwise_singleton _ _, ?_⟩
      · refine (pairwise_splits allowed text).map _ fun s t h => ?_
        simpa using h
      · intro s hs t ht
        obtain ⟨s, hs', rfl⟩ := List.mem_map.1 hs
        rw [List.mem_singleton.1 ht]
        have := List.length_pos_iff.2 (mem_splits.1 hs').1
        simp only [List.length_cons, List.length_nil]
        omega
    · exact .nil

theorem ordered_value (allowed : Char → Bool) (name : List Char) : Ordered (value allowed name) :=
  fun text => (pairwise_splits allowed text).map _ fun _ _ h => .longer _ _ h

theorem Ordered.group {body : Part} (h : Ordered body) : Ordered (group body) := by
  intro text
  refine List.pairwise_append.2 ⟨(h text).map _ fun _ _ h => .cons _ h,
    List.pairwise_singleton _ _, ?_⟩
  intro v hv w hw
  obtain ⟨v, -, rfl⟩ := List.mem_map.1 hv
  rw [List.mem_singleton.1 hw]
  exact .keep _ _

theorem Ordered.andThen {first second : Part} (hf : Ordered first) (hs : Ordered second) :
    Ordered (first.andThen second) := by
  intro text
  refine List.pairwise_flatMap.2 ⟨fun w _ => ?_, (hf text).imp fun {v w} h => ?_⟩
  · exact (hs w.rest).map _ fun _ _ h => h.append_left w.choices
  · intro x hx y hy
    obtain ⟨x, -, rfl⟩ := List.mem_map.1 hx
    obtain ⟨y, -, rfl⟩ := List.mem_map.1 hy
    exact h.append _ _

end Part

theorem Pattern.ordered_ways (p : Pattern) : p.ways.Ordered := by
  induction p with
  | empty => exact fun _ => List.pairwise_singleton _ _
  | literal before c ih => exact ih.andThen (Part.ordered_literal c)
  | segment before name ih => exact ih.andThen (Part.ordered_value _ name)
  | wildcard before ih => exact ih.andThen (Part.ordered_value _ _)
  | group before body ihb ih => exact ihb.andThen ih.group

/-! ## The search finds the first way -/

/-- What a match reports: its parameters and its query. -/
abbrev Found := Params × Option String

def Captures.found (r : Captures) : Found :=
  (Params.ofBindings r.bindings, r.query.map String.ofList)

/-- What is found behind some choices, with what these bind. -/
def Found.after (choices : List Choice) (found : Found) : Found :=
  (⟨choices.filterMap Choice.pair? ++ found.1.pairs⟩, found.2)

theorem Found.after_after (a b : List Choice) (found : Found) :
    (found.after b).after a = found.after (a ++ b) := by
  simp [after]

theorem findSome?_flatMap {α β γ : Type} (f : β → Option γ) (g : α → List β) :
    ∀ l : List α, (l.flatMap g).findSome? f = l.findSome? fun a => (g a).findSome? f
  | [] => rfl
  | a :: l => by
    rw [List.flatMap_cons, List.findSome?_append, List.findSome?_cons, findSome?_flatMap f g l]
    cases (g a).findSome? f <;> rfl

namespace Part

/-- The search finds the first way that what follows agrees to. -/
def Answers (part : Part) (search : Next → Next) : Prop :=
  ∀ next text, (search next text).map Captures.found =
    (part text).findSome? fun w => (next w.rest).map fun r => r.found.after w.choices

theorem answers_literal (c : Char) : Answers (literal c) (Pattern.searchLiteral c) := by
  intro next text
  cases text with
  | nil => rfl
  | cons x text =>
    simp only [Pattern.searchLiteral, literal]
    split
    · rw [List.findSome?_cons, List.findSome?_nil]
      cases next text <;> rfl
    · rfl

/-- The value that a search takes is the longest that what follows agrees to. -/
theorem map_searchSome (allowed : Char → Bool) (next : Next) :
    ∀ text, (Pattern.searchSome allowed next text).map (fun a => (text.take a.1, a.2)) =
      (splits allowed text).findSome? fun s => (next s.2).map fun r => (s.1, r)
  | [] => rfl
  | c :: text => by
    have ih := map_searchSome allowed next text
    simp only [Pattern.searchSome, splits]
    split
    · rw [List.findSome?_append, List.findSome?_map, Pattern.searchMore_eq, List.findSome?_cons,
        List.findSome?_nil]
      have hm : (splits allowed text).findSome?
          ((fun s => (next s.2).map fun r => (s.1, r)) ∘ fun s => (c :: s.1, s.2)) =
          ((splits allowed text).findSome? fun s => (next s.2).map fun r => (s.1, r)).map
            fun a => (c :: a.1, a.2) := by
        rw [List.map_findSome?]
        congr 1
        funext s
        simp [Function.comp_def]
      rw [hm, ← ih]
      cases Pattern.searchSome allowed next text with
      | some a => simp
      | none => cases next text <;> simp
    · rfl

theorem answers_value (allowed : Char → Bool) (name : List Char) :
    Answers (value allowed name) (Pattern.searchValue allowed name) := by
  intro next text
  rw [Pattern.searchValue, value, List.findSome?_map, Option.map_map]
  calc (Pattern.searchSome allowed next text).map
        (Captures.found ∘ fun a => a.2.bindFirst name ⟨text, a.1⟩)
      = ((Pattern.searchSome allowed next text).map fun a => (text.take a.1, a.2)).map
          fun a => a.2.found.after [.bind name a.1] := by
        rw [Option.map_map]
        rfl
    _ = _ := by
        rw [map_searchSome, List.map_findSome?]
        congr 1
        funext s
        simp [Function.comp_def]

theorem Answers.group {body : Part} {search : Next → Next} (h : body.Answers search) :
    (group body).Answers fun next text => (search next text).or (next text) := by
  intro next text
  rw [Option.map_or, h, Part.group, List.findSome?_append, List.findSome?_map,
    List.findSome?_cons, List.findSome?_nil]
  cases next text <;> rfl

theorem Answers.andThen {first second : Part} {f g : Next → Next} (hf : first.Answers f)
    (hg : second.Answers g) : (first.andThen second).Answers fun next => f (g next) := by
  intro next text
  rw [hf, Part.andThen, findSome?_flatMap]
  congr 1
  funext w
  calc (g next w.rest).map (fun r => r.found.after w.choices)
      = ((g next w.rest).map Captures.found).map (Found.after w.choices) := by
        rw [Option.map_map]
        rfl
    _ = _ := by
        rw [hg, List.map_findSome?, List.findSome?_map]
        congr 1
        funext v
        simp [Function.comp_def, Found.after_after]

end Part

/-- The search finds the first way of a pattern that what follows agrees to. -/
theorem Pattern.answers_search (p : Pattern) : p.ways.Answers p.search := by
  induction p with
  | empty =>
    intro next text
    rw [ways, search, List.findSome?_cons, List.findSome?_nil]
    cases next text <;> rfl
  | literal before c ih => exact ih.andThen (Part.answers_literal c)
  | segment before name ih => exact ih.andThen (Part.answers_value _ name)
  | wildcard before ih => exact ih.andThen (Part.answers_value _ _)
  | group before body ihb ih => exact ihb.andThen ih.group

end PathRouting
