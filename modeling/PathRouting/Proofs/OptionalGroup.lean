import PathRouting.Compiled.Exact
import PathRouting.Proofs.Faults
import PathRouting.Proofs.Matching
import PathRouting.Proofs.Scanning

/-!
# An optional group is its content or nothing

A text with a group is read in step with the text that has the content without the parentheses, and
with the text that has neither. Behind the group the three drafts are the same but for one place,
and what is related there is related in the end, however many groups are closed around it
(`Kept.of_parse`). That a pattern matches where one of two others does is such a relation
(`kept_either`). That it finds what the first finds, and else what the second does, is one only
outside of all groups (`kept_prefers`), since the first may find something by dropping a group that
the second keeps. What stands in front of the group must leave it the first choice too, as literal
text does (`passes_of_pushAll`).
-/

namespace PathRouting

namespace Pattern

/-! ## Patterns one after the other -/

/-- A pattern and another one behind it. -/
def append (p : Pattern) : Pattern → Pattern
  | empty => p
  | literal before c => (p.append before).literal c
  | segment before name => (p.append before).segment name
  | wildcard before => (p.append before).wildcard
  | group before body => (p.append before).group body

theorem empty_append (p : Pattern) : empty.append p = p := by
  induction p with
  | empty => rfl
  | literal before c ih => rw [append, ih]
  | segment before name ih => rw [append, ih]
  | wildcard before ih => rw [append, ih]
  | group before body ihb => rw [append, ihb]

theorem search_append (p q : Pattern) (next : Next) :
    (p.append q).search next = p.search (q.search next) := by
  induction q generalizing next with
  | empty => rfl
  | literal before c ih => exact ih _
  | segment before name ih => exact ih _
  | wildcard before ih => exact ih _
  | group before body ihb => exact ihb _

/-- The search finds something if one of the ways leads to where what follows agrees. -/
theorem isSome_search (p : Pattern) (next : Next) (text : List Char) :
    (p.search next text).isSome = (p.ways text).any fun w => (next w.rest).isSome := by
  rw [← Option.isSome_map, p.answers_search, List.isSome_findSome?]
  simp only [Option.isSome_map]

/-- A choice behind a pattern succeeds if the pattern does with one of the two. -/
theorem isSome_search_or (p : Pattern) (f g : Next) (text : List Char) :
    (p.search (fun text => (f text).or (g text)) text).isSome =
      ((p.search f text).isSome || (p.search g text).isSome) := by
  simp only [isSome_search p, Option.isSome_or]
  induction p.ways text with
  | nil => rfl
  | cons w ways ih =>
    rw [List.any_cons, List.any_cons, List.any_cons, ih]
    ac_rfl

/-! ## Reading in step -/

/-- Reading the tokens of a pattern appends it. -/
theorem Draft.pushAll_tokens (p : Pattern) {outer : List Pattern} {current : Pattern}
    {starred : Bool} {after : List Token} {e : Draft}
    (h : Draft.pushAll ⟨outer, current, starred⟩ (p.tokens ++ after) = .ok e) :
    ∃ starred, Draft.pushAll ⟨outer, current.append p, starred⟩ after = .ok e := by
  induction p generalizing outer current starred after with
  | empty => exact ⟨starred, h⟩
  | literal before c ih =>
    rw [tokens_literal, List.append_assoc] at h
    exact ih h
  | segment before name ih =>
    rw [tokens_segment, List.append_assoc] at h
    exact ih h
  | wildcard before ih =>
    rw [tokens_wildcard, List.append_assoc] at h
    obtain ⟨starred, h⟩ := ih h
    cases starred with
    | false => exact ⟨true, h⟩
    | true => cases h
  | group before body ihb ih =>
    rw [tokens_group, List.append_assoc, List.cons_append, List.append_assoc] at h
    obtain ⟨_, h⟩ := ihb h
    obtain ⟨starred, h⟩ := ih h
    rw [empty_append] at h
    exact ⟨starred, h⟩

theorem Draft.pushAll_append_eq_ok {d f : Draft} {s t : List Token}
    (h : d.pushAll (s ++ t) = .ok f) : ∃ e, d.pushAll s = .ok e ∧ e.pushAll t = .ok f := by
  rw [pushAll_append] at h
  split at h
  · next e he => exact ⟨e, he, h⟩
  · cases h

/-- Reading ends in one pattern. -/
theorem pushAll_of_parse {tokens : List Token} {p : Pattern} (h : parse tokens = .ok p) :
    ∃ starred, Draft.start.pushAll tokens = .ok ⟨[], p, starred⟩ := by
  rw [parse] at h
  split at h
  · next d hd =>
    obtain ⟨_ | ⟨before, outer⟩, current, starred⟩ := d
    · cases h
      exact ⟨starred, hd⟩
    · cases h
  · cases h

/-- What is open of a draft, the innermost first. -/
def Draft.parts (d : Draft) : List Pattern :=
  d.current :: d.outer

/-- Three readings have the same parts, but for one place where their parts are related. The
relation may look at the groups that are open around the place. -/
inductive Beside (R : List Pattern → Pattern → Pattern → Pattern → Prop) :
    List Pattern → List Pattern → List Pattern → Prop
  | here {outer : List Pattern} {p q r : Pattern} (h : R outer p q r) :
    Beside R (p :: outer) (q :: outer) (r :: outer)
  | inside (current : Pattern) {l m n : List Pattern} (h : Beside R l m n) :
    Beside R (current :: l) (current :: m) (current :: n)

/-- A relation that goes on where the same is read behind the parts, or where the group that they
are in is closed. -/
structure Kept (R : List Pattern → Pattern → Pattern → Pattern → Prop) : Prop where
  literal : ∀ {outer p q r} (c : Char), R outer p q r →
    R outer (p.literal c) (q.literal c) (r.literal c)
  segment : ∀ {outer p q r} (name : List Char), R outer p q r →
    R outer (p.segment name) (q.segment name) (r.segment name)
  wildcard : ∀ {outer p q r}, R outer p q r → R outer p.wildcard q.wildcard r.wildcard
  group : ∀ {outer p q r} (body : Pattern), R outer p q r →
    R outer (p.group body) (q.group body) (r.group body)
  nested : ∀ {outer p q r} (before : Pattern), R (before :: outer) p q r →
    R outer (before.group p) (before.group q) (before.group r)

section Kept

variable {R : List Pattern → Pattern → Pattern → Pattern → Prop} {d e f d' e' f' : Draft}

theorem Kept.push (hR : Kept R) {token : Token} (h : Beside R d.parts e.parts f.parts)
    (hd : d.push token = .ok d') (he : e.push token = .ok e') (hf : f.push token = .ok f') :
    Beside R d'.parts e'.parts f'.parts := by
  obtain ⟨l, p, _⟩ := d
  obtain ⟨m, q, _⟩ := e
  obtain ⟨n, r, _⟩ := f
  cases token with
  | literal c =>
    cases hd; cases he; cases hf
    cases h with
    | here h => exact .here (hR.literal c h)
    | inside _ h => exact .inside _ h
  | segment name =>
    cases hd; cases he; cases hf
    cases h with
    | here h => exact .here (hR.segment name h)
    | inside _ h => exact .inside _ h
  | wildcard =>
    simp only [Draft.push] at hd he hf
    split at hd <;> cases hd
    split at he <;> cases he
    split at hf <;> cases hf
    cases h with
    | here h => exact .here (hR.wildcard h)
    | inside _ h => exact .inside _ h
  | opening =>
    cases hd; cases he; cases hf
    exact .inside empty h
  | closing =>
    -- The group that is closed is the one that has the place, or stands right behind the place, or
    -- is the same in all three.
    cases h with
    | here h =>
      rcases l with _ | ⟨before, outer⟩
      · cases hd
      · cases hd; cases he; cases hf
        exact .here (hR.nested before h)
    | inside _ h =>
      cases h with
      | here h =>
        cases hd; cases he; cases hf
        exact .here (hR.group p h)
      | inside before h =>
        cases hd; cases he; cases hf
        exact .inside _ h

theorem Kept.pushAll (hR : Kept R) : ∀ (tokens : List Token) {d e f d' e' f' : Draft},
    Beside R d.parts e.parts f.parts → d.pushAll tokens = .ok d' → e.pushAll tokens = .ok e' →
      f.pushAll tokens = .ok f' → Beside R d'.parts e'.parts f'.parts
  | [], _, _, _, _, _, _, h, hd, he, hf => by
    cases hd; cases he; cases hf
    exact h
  | token :: tokens, _, _, _, _, _, _, h, hd, he, hf => by
    rw [Draft.pushAll] at hd he hf
    split at hd <;> [skip; cases hd]
    split at he <;> [skip; cases he]
    split at hf <;> [skip; cases hf]
    next hd' _ _ he' _ _ hf' => exact pushAll hR tokens (hR.push h hd' he' hf') hd he hf

/-- What is related behind a group, its content and nothing is related in the end. -/
theorem Kept.of_parse (hR : Kept R) {body p q r : Pattern} {s t : List Token}
    (hp : parse (s ++ .opening :: (body.tokens ++ .closing :: t)) = .ok p)
    (hq : parse (s ++ (body.tokens ++ t)) = .ok q) (hr : parse (s ++ t) = .ok r)
    (h : ∀ d, Draft.start.pushAll s = .ok d →
      R d.outer (d.current.group body) (d.current.append body) d.current) : R [] p q r := by
  obtain ⟨_, hp⟩ := pushAll_of_parse hp
  obtain ⟨_, hq⟩ := pushAll_of_parse hq
  obtain ⟨_, hr⟩ := pushAll_of_parse hr
  obtain ⟨⟨outer, before, starred⟩, hs, hp⟩ := Draft.pushAll_append_eq_ok hp
  rw [Draft.pushAll_append, hs] at hq hr
  have h := h _ hs
  obtain ⟨_, hp⟩ : ∃ starred, Draft.pushAll ⟨before :: outer, empty.append body, starred⟩
    (.closing :: t) = .ok _ := Draft.pushAll_tokens body hp
  obtain ⟨_, hq⟩ := Draft.pushAll_tokens body hq
  rw [empty_append] at hp
  have hb : Beside R [p] [q] [r] :=
    hR.pushAll t (d := ⟨outer, before.group body, _⟩) (e := ⟨outer, before.append body, _⟩)
      (f := ⟨outer, before, starred⟩) (.here h) hp hq hr
  cases hb with
  | here h => exact h
  | inside _ h => cases h

end Kept

/-! ## The two relations -/

/-- A pattern finds something if one of two others does. -/
def Either (p q r : Pattern) : Prop :=
  ∀ next text, (p.search next text).isSome =
    ((q.search next text).isSome || (r.search next text).isSome)

theorem kept_either : Kept fun _ => Either where
  literal c h next := h (searchLiteral c next)
  segment name h next := h (searchValue isSegmentChar name next)
  wildcard h next := h (searchValue (fun _ => true) wildcardName next)
  group body h next := h fun text => (body.search next text).or (next text)
  nested {_ p q r} before h next text := by
    have hb : (before.search (p.search next) text).isSome =
        (before.search (fun text => (q.search next text).or (r.search next text)) text).isSome := by
      simp only [isSome_search before, h next, Option.isSome_or]
    rw [search, search, search, isSome_search_or, isSome_search_or, isSome_search_or, hb,
      isSome_search_or]
    ac_rfl

theorem either_group (p body : Pattern) : Either (p.group body) (p.append body) p := by
  intro next text
  rw [search_append, search, isSome_search_or]

/-- A pattern finds what another finds, and else what a third one does. -/
def Prefers (p q r : Pattern) : Prop :=
  ∀ next text, p.search next text = (q.search next text).or (r.search next text)

/-- At the top no group is closed any more. -/
theorem kept_prefers : Kept fun outer p q r => outer = [] ∧ Prefers p q r where
  literal c h := ⟨h.1, fun next => h.2 (searchLiteral c next)⟩
  segment name h := ⟨h.1, fun next => h.2 (searchValue isSegmentChar name next)⟩
  wildcard h := ⟨h.1, fun next => h.2 (searchValue (fun _ => true) wildcardName next)⟩
  group body h := ⟨h.1, fun next => h.2 fun text => (body.search next text).or (next text)⟩
  nested before h := by cases h.1

/-- What comes first behind the pattern comes first of all. -/
def Passes (p : Pattern) : Prop :=
  ∀ (f g : Next) text, p.search (fun text => (f text).or (g text)) text =
    (p.search f text).or (p.search g text)

theorem prefers_group {p : Pattern} (h : p.Passes) (body : Pattern) :
    Prefers (p.group body) (p.append body) p := by
  intro next text
  rw [search_append, search, h (body.search next) next]

theorem Passes.literal {p : Pattern} (h : p.Passes) (c : Char) : (p.literal c).Passes := by
  intro f g text
  rw [search, search, search, ← h]
  congr 1
  funext text
  cases text with
  | nil => rfl
  | cons x text =>
    simp only [searchLiteral]
    split <;> rfl

theorem passes_of_pushAll : ∀ {tokens : List Token} {d e : Draft},
    (∀ t ∈ tokens, ∃ c, t = .literal c) → d.pushAll tokens = .ok e → d.current.Passes →
      e.outer = d.outer ∧ e.current.Passes
  | [], _, _, _, h, hp => by
    cases h
    exact ⟨rfl, hp⟩
  | _ :: _, d, _, ht, h, hp => by
    obtain ⟨⟨c, rfl⟩, hts⟩ := List.forall_mem_cons.1 ht
    have ih := passes_of_pushAll (d := { d with current := d.current.literal c }) hts h
    exact ih (hp.literal c)

end Pattern

/-- The three texts around a group are scanned one after the other, whether it is kept or not. -/
theorem Pattern.parse_of_group {a g b : List Char} {p q r : Pattern} (hg : Balanced g)
    (hag : Token.joins a g = false) (hgb : Token.joins g b = false)
    (hab : Token.joins a b = false) (hp : ofText (a ++ '(' :: (g ++ ')' :: b)) = .ok p)
    (hq : ofText (a ++ (g ++ b)) = .ok q) (hr : ofText (a ++ b) = .ok r) :
    ∃ body : Pattern,
      parse (Token.scan a ++ .opening :: (body.tokens ++ .closing :: Token.scan b)) = .ok p ∧
      parse (Token.scan a ++ (body.tokens ++ Token.scan b)) = .ok q ∧
      parse (Token.scan a ++ Token.scan b) = .ok r := by
  have hs : g.count '*' ≤ 1 := by
    have hc := (exists_ofText_iff.1 ⟨p, hp⟩).2
    simp only [List.count_append, List.count_cons] at hc
    omega
  obtain ⟨body, hb⟩ := exists_ofText_iff.2 ⟨hg, hs⟩
  have ho : Token.scan ('(' :: (g ++ ')' :: b)) =
      .opening :: (Token.scan g ++ .closing :: Token.scan b) :=
    congrArg (Token.opening :: ·)
      (Token.scan_append (Token.joins_cons_eq_false (by decide) g b))
  rw [ofText, Token.scan_append (Token.joins_cons_eq_false (by decide) a _), ho] at hp
  rw [ofText, Token.scan_append (Token.joins_append hag hab), Token.scan_append hgb] at hq
  rw [ofText, Token.scan_append hab] at hr
  rw [← tokens_of_ofText hb] at hp hq
  exact ⟨body, hp, hq, hr⟩

namespace Compiled

/-- A group can be kept or dropped: with it a pattern matches what it matches where the parentheses
are taken away or the whole group. Behind literal text, what is found is found with the group if
there is something to find, and else without it. -/
theorem optional_group_law {a g b : String} {c kept dropped : Compiled} (hg : Balanced g.toList)
    (hag : Token.joins a.toList g.toList = false) (hgb : Token.joins g.toList b.toList = false)
    (hab : Token.joins a.toList b.toList = false)
    (hc : compile (a ++ "(" ++ g ++ ")" ++ b) = .ok c) (hk : compile (a ++ g ++ b) = .ok kept)
    (hd : compile (a ++ b) = .ok dropped) :
    (∀ url, c.isMatch url = true ↔ kept.isMatch url = true ∨ dropped.isMatch url = true) ∧
      ((∀ t ∈ Token.scan a.toList, ∃ x, t = .literal x) → ∀ url : String,
        c.extract url.toList =
            (if kept.isMatch url then kept.extract url.toList else dropped.extract url.toList) ∧
          c.captures url = if kept.isMatch url then kept.captures url else dropped.captures url) := by
  obtain ⟨body, hp, hq, hr⟩ := Pattern.parse_of_group hg hag hgb hab
    (by simpa using (of_compile_eq_ok hc).2) (by simpa using (of_compile_eq_ok hk).2)
    (by simpa using (of_compile_eq_ok hd).2)
  refine ⟨fun url => ?_, fun ha url => ?_⟩
  · have hj := Pattern.kept_either.of_parse hp hq hr fun d _ => Pattern.either_group d.current body
    rw [isMatch_eq_search, isMatch_eq_search, isMatch_eq_search, hj, Bool.or_eq_true]
  · obtain ⟨-, hf⟩ := Pattern.kept_prefers.of_parse hp hq hr fun d hd => by
      obtain ⟨ho, hpass⟩ := Pattern.passes_of_pushAll ha hd fun _ _ _ => rfl
      exact ⟨ho, Pattern.prefers_group hpass body⟩
    have he : c.extract url.toList =
        if kept.isMatch url then kept.extract url.toList else dropped.extract url.toList := by
      rw [isMatch_eq_search, extract_eq_search, extract_eq_search, extract_eq_search, hf]
      cases kept.pattern.search Captures.ofRest url.toList <;> rfl
    refine ⟨he, ?_⟩
    rw [captures, he]
    split <;> rfl

theorem optional_group_law_nested :
    ∃ c kept dropped, compile ("/a(/:id" ++ "(" ++ ".b" ++ ")" ++ "/c)") = .ok c ∧
      compile ("/a(/:id" ++ ".b" ++ "/c)") = .ok kept ∧
      compile ("/a(/:id" ++ "/c)") = .ok dropped ∧
      (dropped.isMatch "/a/1/c?q" = true ∧ c.isMatch "/a/1/c?q" = true) ∧
    ∃ c kept dropped, compile ("/a" ++ "(" ++ "-:x" ++ ")" ++ "*") = .ok c ∧
      compile ("/a" ++ "-:x" ++ "*") = .ok kept ∧ compile ("/a" ++ "*") = .ok dropped ∧
      kept.isMatch "/a-12?q" = true ∧ c.captures "/a-12?q" = kept.captures "/a-12?q" := by
  obtain ⟨c, hc⟩ : ∃ c, compile ("/a(/:id" ++ "(" ++ ".b" ++ ")" ++ "/c)") = .ok c := ⟨_, rfl⟩
  obtain ⟨kept, hk⟩ : ∃ c, compile ("/a(/:id" ++ ".b" ++ "/c)") = .ok c := ⟨_, rfl⟩
  obtain ⟨dropped, hd, hm⟩ : ∃ c, compile ("/a(/:id" ++ "/c)") = .ok c ∧
    c.isMatch "/a/1/c?q" = true := ⟨_, rfl, by decide +kernel⟩
  have hb : Balanced ".b".toList := (Pattern.exists_ofText_iff.1 ⟨_, rfl⟩).1
  obtain ⟨hlaw, -⟩ := optional_group_law hb (by decide) (by decide) (by decide) hc hk hd
  refine ⟨c, kept, dropped, hc, hk, hd, ⟨hm, (hlaw _).2 (.inr hm)⟩, ?_⟩
  obtain ⟨c, hc⟩ : ∃ c, compile ("/a" ++ "(" ++ "-:x" ++ ")" ++ "*") = .ok c := ⟨_, rfl⟩
  obtain ⟨kept, hk, hm⟩ : ∃ c, compile ("/a" ++ "-:x" ++ "*") = .ok c ∧
    c.isMatch "/a-12?q" = true := ⟨_, rfl, by decide +kernel⟩
  obtain ⟨dropped, hd⟩ : ∃ c, compile ("/a" ++ "*") = .ok c := ⟨_, rfl⟩
  have hb : Balanced "-:x".toList := (Pattern.exists_ofText_iff.1 ⟨_, rfl⟩).1
  obtain ⟨-, hlaw⟩ := optional_group_law hb (by decide) (by decide) (by decide) hc hk hd
  have ha : Token.scan "/a".toList = [.literal '/', .literal 'a'] := rfl
  obtain ⟨-, hx⟩ := hlaw (by rw [ha]; simp) "/a-12?q"
  rw [hm] at hx
  exact ⟨c, kept, dropped, hc, hk, hd, hm, hx⟩

end Compiled

end PathRouting
