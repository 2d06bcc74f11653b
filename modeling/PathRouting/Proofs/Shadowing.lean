import PathRouting.Proofs.Matching
import PathRouting.Proofs.Table.FirstMatch
import PathRouting.Proofs.Table.Index

/-!
# A general pattern shadows the more special ones

A pattern is made more special where a segment or the wildcard is replaced by tokens that spell what
its value may be (`Token.Narrows`). What the special tokens spell is then spelled by the general ones
too (`Pattern.covers_of_specializes`), so a url that matches the special pattern matches the general
one, and a table in which that stands first never comes to the other.

The induction is on the general pattern and builds the special one along it: a group that is dropped
has to be a group on both sides.
-/

namespace PathRouting

variable {α β γ : Type}

namespace Token

/-- All that the token spells is of the extent. Groups and wildcards have no extent. -/
def StaysIn (extent : Extent) : Token → Prop
  | literal c => extent.admits c = true
  | segment _ => True
  | _ => False

/-- What may stand for a token in a more special pattern: for a segment, segments and characters
that its value may have, and for the wildcard, segments and any characters. -/
inductive Narrows : Token → List Token → Prop
  | same (t : Token) : Narrows t [t]
  | segment (name : List Char) {part : List Token} (hne : part ≠ [])
    (h : ∀ t ∈ part, t.StaysIn .segment) : Narrows (segment name) part
  | wildcard {part : List Token} (hne : part ≠ []) (h : ∀ t ∈ part, t.StaysIn .anything) :
    Narrows wildcard part

/-- The second tokens are the first with narrower ones in the place of some. -/
inductive Specializes : List Token → List Token → Prop
  | nil : Specializes [] []
  | cons {t : Token} {part tokens others : List Token} (ht : Narrows t part)
    (h : Specializes tokens others) : Specializes (t :: tokens) (part ++ others)

theorem Specializes.split {s t others : List Token} (h : Specializes (s ++ t) others) :
    ∃ a b, others = a ++ b ∧ Specializes s a ∧ Specializes t b := by
  induction s generalizing others with
  | nil => exact ⟨[], others, rfl, .nil, h⟩
  | cons x s ih =>
    cases h with
    | @cons _ part _ _ hx h =>
      obtain ⟨a, b, rfl, ha, hb⟩ := ih h
      exact ⟨part ++ a, b, by rw [List.append_assoc], .cons hx ha, hb⟩

theorem Specializes.of_singleton {t : Token} {others : List Token} (h : Specializes [t] others) :
    Narrows t others := by
  cases h with
  | cons ht h =>
    cases h
    rwa [List.append_nil]

end Token

namespace Spells

variable {part tokens : List Token} {choices : List Choice} {path : List Char} {extent : Extent}

/-- Tokens of an extent spell characters of it. -/
theorem admits_of_staysIn (h : Spells part choices path) (hp : ∀ t ∈ part, t.StaysIn extent) :
    ∀ c ∈ path, extent.admits c = true := by
  induction h with
  | nil => nofun
  | literal c _ ih =>
    obtain ⟨hc, hp⟩ := List.forall_mem_cons.1 hp
    exact List.forall_mem_cons.2 ⟨hc, ih hp⟩
  | segment name _ hv _ ih =>
    refine List.forall_mem_append.2 ⟨fun c hc => ?_, ih (List.forall_mem_cons.1 hp).2⟩
    cases extent with
    | segment => simpa [Extent.admits, isSegmentChar] using hv c hc
    | anything => rfl
  | wildcard | keep | closing | drop => exact (List.forall_mem_cons.1 hp).1.elim

theorem ne_nil_of_staysIn (h : Spells part choices path) (hp : ∀ t ∈ part, t.StaysIn extent)
    (hne : part ≠ []) : path ≠ [] := by
  cases h with
  | nil => exact absurd rfl hne
  | literal c => exact List.cons_ne_nil _ _
  | segment name hv => exact List.append_ne_nil_of_left_ne_nil hv _
  | wildcard | keep | closing | drop => exact (List.forall_mem_cons.1 hp).1.elim

/-- What narrower tokens spell, the token spells. -/
theorem of_narrows {t : Token} (ht : t.Narrows part) (h : Spells part choices path) :
    ∃ choices, Spells [t] choices path := by
  cases ht with
  | same => exact ⟨choices, h⟩
  | segment name hne hp =>
    have hv : ∀ c ∈ path, c ≠ '/' ∧ c ≠ '?' := fun c hc => by
      simpa [Extent.admits, isSegmentChar] using h.admits_of_staysIn hp c hc
    exact ⟨_, by simpa using Spells.segment name (h.ne_nil_of_staysIn hp hne) hv .nil⟩
  | wildcard hne hp =>
    exact ⟨_, by simpa using Spells.wildcard (h.ne_nil_of_staysIn hp hne) .nil⟩

end Spells

namespace Pattern

/-- A pattern goes on with tokens of an extent. -/
theorem exists_tokens_append {extent : Extent} : ∀ (part : List Token) (q : Pattern),
    (∀ t ∈ part, t.StaysIn extent) → ∃ r : Pattern, r.tokens = q.tokens ++ part
  | [], q, _ => ⟨q, by simp⟩
  | t :: part, q, hp => by
    obtain ⟨ht, hpart⟩ := List.forall_mem_cons.1 hp
    cases t with
    | literal c =>
      obtain ⟨r, hr⟩ := exists_tokens_append part (q.literal c) hpart
      exact ⟨r, by simpa using hr⟩
    | segment name =>
      obtain ⟨r, hr⟩ := exists_tokens_append part (q.segment name) hpart
      exact ⟨r, by simpa using hr⟩
    | wildcard | opening | closing => exact ht.elim

/-- The second tokens are those of a pattern, and what they spell is spelled by the first. -/
def Covers (tokens others : List Token) : Prop :=
  ∃ q : Pattern, q.tokens = others ∧
    ∀ choices path, Spells others choices path → ∃ choices, Spells tokens choices path

theorem Covers.append_narrows {p : Pattern} {others part : List Token} {t : Token}
    (h : Covers p.tokens others) (ht : t.Narrows part) (ho : t ≠ .opening) (hc : t ≠ .closing) :
    Covers (p.tokens ++ [t]) (others ++ part) := by
  obtain ⟨q, rfl, hq⟩ := h
  obtain ⟨r, hr⟩ : ∃ r : Pattern, r.tokens = q.tokens ++ part := by
    cases ht with
    | same =>
      cases t with
      | literal c => exact ⟨q.literal c, tokens_literal q c⟩
      | segment name => exact ⟨q.segment name, tokens_segment q name⟩
      | wildcard => exact ⟨q.wildcard, tokens_wildcard q⟩
      | opening => exact absurd rfl ho
      | closing => exact absurd rfl hc
    | segment name _ hp => exact exists_tokens_append part q hp
    | wildcard _ hp => exact exists_tokens_append part q hp
  refine ⟨r, hr, fun choices path hs => ?_⟩
  obtain ⟨a, b, u, v, rfl, rfl, ha, hb⟩ := Spells.split q hs
  obtain ⟨a, ha⟩ := hq a u ha
  obtain ⟨b, hb⟩ := Spells.of_narrows ht hb
  exact ⟨a ++ b, ha.append hb⟩

/-- A group keeps or drops its body on both sides. -/
theorem Covers.group {p body : Pattern} {others inner : List Token} (h : Covers p.tokens others)
    (hb : Covers body.tokens inner) :
    Covers (p.group body).tokens (others ++ .opening :: (inner ++ [.closing])) := by
  obtain ⟨q, rfl, hq⟩ := h
  obtain ⟨r, rfl, hr⟩ := hb
  refine ⟨q.group r, tokens_group q r, fun choices path hs => ?_⟩
  obtain ⟨a, b, u, v, rfl, rfl, ha, hg⟩ := Spells.split q hs
  obtain ⟨a, ha⟩ := hq a u ha
  suffices hg : ∃ b, Spells (.opening :: (body.tokens ++ [.closing])) b v by
    obtain ⟨b, hg⟩ := hg
    exact ⟨a ++ b, tokens_group p body ▸ ha.append hg⟩
  -- A group is dropped with some body, which is the one of `r` since its tokens end where they do.
  generalize ht : r.tokens ++ [Token.closing] = tokens at hg
  cases hg with
  | keep hg =>
    subst ht
    obtain ⟨b, d, v, w, rfl, rfl, hb, hc⟩ := Spells.split r hg
    obtain ⟨b, hb⟩ := hr b v hb
    exact ⟨.keep :: (b ++ d), .keep (hb.append hc)⟩
  | drop other hg =>
    obtain ⟨-, rfl⟩ := Token.tokens_closing_inj ht
    exact ⟨_, .drop body hg⟩

theorem covers_of_specializes (p : Pattern) {others : List Token}
    (h : Token.Specializes p.tokens others) : Covers p.tokens others := by
  induction p generalizing others with
  | empty =>
    cases h
    exact ⟨empty, rfl, fun choices path h => ⟨choices, h⟩⟩
  | literal before c ih =>
    rw [tokens_literal] at h ⊢
    obtain ⟨a, b, rfl, ha, hb⟩ := h.split
    exact (ih ha).append_narrows hb.of_singleton nofun nofun
  | segment before name ih =>
    rw [tokens_segment] at h ⊢
    obtain ⟨a, b, rfl, ha, hb⟩ := h.split
    exact (ih ha).append_narrows hb.of_singleton nofun nofun
  | wildcard before ih =>
    rw [tokens_wildcard] at h ⊢
    obtain ⟨a, b, rfl, ha, hb⟩ := h.split
    exact (ih ha).append_narrows hb.of_singleton nofun nofun
  | group before body ihb ih =>
    rw [tokens_group] at h
    obtain ⟨a, b, rfl, ha, hb⟩ := h.split
    cases hb with
    | cons ho hb =>
      cases ho
      obtain ⟨c, d, rfl, hc, hd⟩ := hb.split
      cases hd.of_singleton
      exact (ihb ha).group (ih hc)

end Pattern

/-- A more special pattern matches no more urls. -/
theorem Compiled.isMatch_of_specializes {general special : String} {c d : Compiled}
    (hc : compile general = .ok c) (hd : compile special = .ok d)
    (hs : Token.Specializes (Token.scan general.toList) (Token.scan special.toList)) {url : String}
    (hm : d.isMatch url = true) : c.isMatch url = true := by
  obtain ⟨e⟩ := (isMatch_iff hd url).1 hm
  rw [← Pattern.tokens_of_ofText (of_compile_eq_ok hc).2] at hs
  obtain ⟨-, -, hq⟩ := c.pattern.covers_of_specializes hs
  obtain ⟨choices, hp⟩ := hq e.choices e.path e.spells
  rw [Pattern.tokens_of_ofText (of_compile_eq_ok hc).2] at hp
  exact (isMatch_iff hc url).2 ⟨⟨choices, e.path, e.rest, hp, e.url_eq, e.rest_eq⟩⟩

namespace Table

/-- A lookup that finds something finds the first pattern that matches. -/
theorem Valid.route_of_find {t : Table α} (h : t.Valid) {url : String} {m : Match α}
    (hm : (t.find url).answer = .ok (some m)) : ∃ r, t.routes[t.firstMatch url]? = some r ∧
      accepts url r.pattern = true ∧ m = ⟨r.value, url, r.pattern, m.params, m.query⟩ := by
  obtain ⟨hlt, hgt, heq⟩ := h.find_cases url
  rcases Nat.lt_trichotomy (t.firstMatch url) t.firstBroken with hc | hc | hc
  · obtain ⟨r, c, params, query, hr, hc, hx, hf⟩ := hlt hc
    rw [hf] at hm
    cases hm
    exact ⟨r, hr, by rw [accepts_of_ok hc, hx]; rfl, rfl⟩
  · rw [(heq hc).2] at hm
    cases hm
  · obtain ⟨r, e, -, -, hf⟩ := hgt hc
    rw [hf] at hm
    cases hm

/-- A pattern that stands behind one that matches whenever it does is never found. -/
theorem Valid.pattern_ne_of_shadowed {t : Table α} (h : t.Valid) {general special url : String}
    {i j : Nat} (hij : i < j) (hi : t.patterns[i]? = some general)
    (hj : t.patterns[j]? = some special)
    (ha : accepts url special = true → accepts url general = true) {r : Route α}
    (hr : t.routes[t.firstMatch url]? = some r) (hm : accepts url r.pattern = true) :
    r.pattern ≠ special := by
  rintro rfl
  have hk : t.patterns[t.firstMatch url]? = some r.pattern := by
    rw [patterns, List.getElem?_map, Array.getElem?_toList, hr]
    rfl
  have hf : t.firstMatch url = j := by
    have hx := (h.index_iff _ _).2 hk
    rwa [(h.index_iff _ _).2 hj, Option.some.injEq, eq_comm] at hx
  obtain ⟨hlen, hp⟩ := List.getElem?_eq_some_iff.1 hi
  rw [← hf] at hij
  have hn : accepts url t.patterns[i] = false := List.not_of_lt_findIdx hij
  rw [hp, ha hm] at hn
  cases hn

end Table

/-- What a pattern matches is matched by each pattern that it specialises, so where that stands
before it in a table, no lookup finds it and no value of it is called. -/
theorem general_shadows_special (call : α → γ → Params → β) {general special : String}
    {c d : Compiled} (hc : compile general = .ok c) (hd : compile special = .ok d)
    (hs : Token.Specializes (Token.scan general.toList) (Token.scan special.toList)) :
    (∀ url, d.isMatch url = true → c.isMatch url = true) ∧
      ∀ t : Table α, t.Reachable call → ∀ i j : Nat, i < j →
        t.patterns[i]? = some general → t.patterns[j]? = some special → ∀ url,
          (∀ m, (t.find url).answer = .ok (some m) → m.pattern ≠ special) ∧
          ∀ context out, (t.dispatch call url context).answer = .ok (some out) →
            ∃ r ∈ t.routes.toList, ∃ params query, r.pattern ≠ special ∧
              (t.find url).answer = .ok (some ⟨r.value, url, r.pattern, params, query⟩) ∧
              out = call r.value context params := by
  have hsub : ∀ url, d.isMatch url = true → c.isMatch url = true :=
    fun url => Compiled.isMatch_of_specializes hc hd hs
  refine ⟨hsub, fun t ht i j hij hi hj url => ?_⟩
  have ha : accepts url special = true → accepts url general = true := by
    simpa only [accepts, hc, hd] using hsub url
  refine ⟨fun m hm => ?_, fun context out ho => ?_⟩
  · obtain ⟨r, hr, hacc, he⟩ := ht.valid.route_of_find hm
    rw [he]
    exact ht.valid.pattern_ne_of_shadowed hij hi hj ha hr hacc
  · rw [Table.answer_dispatch] at ho
    rcases hf : (t.find url).answer with e | _ | m
    · rw [hf] at ho
      cases ho
    · rw [hf] at ho
      cases ho
    · rw [hf] at ho
      cases ho
      obtain ⟨r, hr, hacc, he⟩ := ht.valid.route_of_find hf
      have hne := ht.valid.pattern_ne_of_shadowed hij hi hj ha hr hacc
      have hm : r ∈ t.routes.toList := by
        rw [← Array.getElem?_toList] at hr
        exact List.mem_of_getElem? hr
      rw [he]
      exact ⟨r, hm, m.params, m.query, hne, rfl, rfl⟩

theorem general_shadows_special_group :
    let t : Table Nat := .ofList [("/:x(/*)", 1), ("/a-:y(/:z.b?)", 2)]
    ∃ c d, compile "/:x(/*)" = .ok c ∧ compile "/a-:y(/:z.b?)" = .ok d ∧
      d.isMatch "/a-1/2.b??q" = true ∧ c.isMatch "/a-1/2.b??q" = true ∧
      ∀ m, (t.find "/a-1/2.b??q").answer = .ok (some m) → m.pattern ≠ "/a-:y(/:z.b?)" := by
  intro t
  have ht : t.Reachable fun value (_ : Unit) _ => value :=
    ⟨[("/:x(/*)", 1), ("/a-:y(/:z.b?)", 2)], [], rfl⟩
  obtain ⟨c, hc⟩ : ∃ c, compile "/:x(/*)" = .ok c := ⟨_, rfl⟩
  obtain ⟨d, hd, hm⟩ : ∃ d, compile "/a-:y(/:z.b?)" = .ok d ∧ d.isMatch "/a-1/2.b??q" = true :=
    ⟨_, rfl, by decide +kernel⟩
  have hx : Token.Narrows (.segment ['x']) [.literal 'a', .literal '-', .segment ['y']] :=
    .segment _ (by simp) (by simp [Token.StaysIn, Extent.admits, isSegmentChar])
  have hp : Token.Narrows .wildcard [.segment ['z'], .literal '.', .literal 'b', .literal '?'] :=
    .wildcard (by simp) (by simp [Token.StaysIn, Extent.admits])
  have hs : Token.Specializes (Token.scan "/:x(/*)".toList) (Token.scan "/a-:y(/:z.b?)".toList) :=
    .cons (.same _) (.cons hx (.cons (.same _) (.cons (.same _) (.cons hp (.cons (.same _) .nil)))))
  obtain ⟨hsub, htable⟩ := general_shadows_special (fun value (_ : Unit) _ => value) hc hd hs
  exact ⟨c, d, hc, hd, hm, hsub _ hm, (htable t ht 0 1 (by decide) rfl rfl _).1⟩

end PathRouting
