import Mathlib.Data.Finset.Card
import PathRouting.Proofs.Filling
import PathRouting.Proofs.Priority

/-!
# The views of parameters agree

A lookup from the right, a search from the left and a map that is filled front to back all come down
to the rightmost pair of a name (`get?_eq_some_iff`, `getElem?_toMap`), and the map has one entry for
each name (`size_toMap`).

What a match binds is decided by the groups that it drops. A parameter is bound where the derivation
gets to its token, and it gets to all tokens but those in a group that is dropped
(`Spells.bound_iff`), so a name is bound where one of its tokens stands outside these groups.
-/

namespace PathRouting

variable {α β γ : Type}

namespace Params

variable {p : Params} {name value : String}

def names (p : Params) : List String :=
  p.pairs.map Prod.fst

/-- The value stands in the rightmost pair of the name. -/
def Rightmost (p : Params) (name value : String) : Prop :=
  ∃ before behind, p.pairs = before ++ (name, value) :: behind ∧ ∀ pair ∈ behind, pair.1 ≠ name

theorem get?_eq_some_iff : p.get? name = some value ↔ p.Rightmost name value := by
  rw [get?, List.lookup_eq_some_iff]
  constructor
  · rintro ⟨behind, before, hp, hn⟩
    refine ⟨before.reverse, behind.reverse, ?_, fun pair hm => ?_⟩
    · rw [← List.reverse_reverse p.pairs, hp]
      simp
    · have := hn pair (List.mem_reverse.1 hm)
      exact fun he => absurd he.symm (by simpa using this)
  · rintro ⟨before, behind, hp, hn⟩
    refine ⟨behind.reverse, before.reverse, by simp [hp], fun pair hm => ?_⟩
    simpa using (hn pair (List.mem_reverse.1 hm)).symm

theorem isSome_get?_iff : (p.get? name).isSome = true ↔ name ∈ p.names := by
  rw [get?, List.lookup_isSome_iff, names, List.mem_map]
  simp only [List.mem_reverse, beq_iff_eq, eq_comm (a := name)]

theorem get?_eq_none_iff : p.get? name = none ↔ name ∉ p.names := by
  rw [← isSome_get?_iff, Option.not_isSome_iff_eq_none]

theorem contains_eq_isSome_get? : p.contains name = (p.get? name).isSome := by
  rw [Bool.eq_iff_iff, isSome_get?_iff, contains, names, List.any_eq_true, List.mem_map]
  simp

/-! ## The map -/

/-- One more pair at the end is the one that is read. -/
theorem get?_concat (pairs : List (String × String)) (key value name : String) :
    get? ⟨pairs ++ [(key, value)]⟩ name = if key = name then some value else get? ⟨pairs⟩ name := by
  rw [get?, List.reverse_append, List.reverse_singleton, List.singleton_append, List.lookup_cons]
  by_cases h : key = name
  · subst h
    simp
  · have hb : (name == key) = false := beq_false_of_ne (Ne.symm h)
    rw [hb, if_neg h, get?]

theorem toMap_concat (pairs : List (String × String)) (key value : String) :
    toMap ⟨pairs ++ [(key, value)]⟩ = (toMap ⟨pairs⟩).insert key value := by
  rw [toMap, List.foldl_append]
  rfl

/-- The map holds what is read. -/
theorem getElem?_toMap (p : Params) (name : String) : p.toMap[name]? = p.get? name := by
  obtain ⟨pairs⟩ := p
  induction pairs using List.reverseRecOn with
  | nil => rfl
  | append_singleton pairs pair ih =>
    obtain ⟨key, value⟩ := pair
    rw [toMap_concat, get?_concat, Std.TreeMap.getElem?_insert, ih]
    simp only [Std.LawfulEqCmp.compare_eq_iff_eq]

theorem mem_toMap_iff : name ∈ p.toMap ↔ name ∈ p.names := by
  rw [Std.TreeMap.mem_iff_isSome_getElem?, getElem?_toMap, isSome_get?_iff]

/-- The map has one entry for each name. -/
theorem size_toMap (p : Params) : p.toMap.size = p.names.toFinset.card := by
  obtain ⟨pairs⟩ := p
  induction pairs using List.reverseRecOn with
  | nil => rfl
  | append_singleton pairs pair ih =>
    obtain ⟨key, value⟩ := pair
    have hn : names ⟨pairs ++ [(key, value)]⟩ = names ⟨pairs⟩ ++ [key] := by simp [names]
    have hc : (toMap ⟨pairs⟩).contains key = true ↔ key ∈ (names ⟨pairs⟩).toFinset := by
      rw [Std.TreeMap.contains_iff_mem, mem_toMap_iff, List.mem_toFinset]
    rw [toMap_concat, Std.TreeMap.size_insert, ih, hn, List.toFinset_append, List.toFinset_cons,
      List.toFinset_nil, insert_empty_eq, Finset.union_singleton]
    by_cases hk : key ∈ (names ⟨pairs⟩).toFinset
    · rw [if_pos (hc.2 hk), Finset.insert_eq_of_mem hk]
    · rw [if_neg (mt hc.1 hk), Finset.card_insert_of_notMem hk]

theorem size_toMap_lt_iff : p.toMap.size < p.size ↔ ∃ name, 1 < p.names.count name := by
  have hl : p.size = p.names.length := (List.length_map Prod.fst).symm
  have hn : (∃ name, 1 < p.names.count name) ↔ ¬p.names.Nodup := by
    simp [List.nodup_iff_count_le_one]
  rw [size_toMap, hl, hn]
  constructor
  · intro h hd
    rw [List.toFinset_card_of_nodup hd] at h
    exact h.false
  · intro h
    refine lt_of_le_of_ne (List.toFinset_card_le _) fun he => h ?_
    rw [List.card_toFinset] at he
    rw [← (List.dedup_sublist p.names).eq_of_length he]
    exact List.nodup_dedup _

end Params

/-! ## What a derivation binds -/

/-- A group of the tokens is dropped. Its parentheses are the tokens at `first` and `last`. -/
def Drops (tokens : List Token) (choices : List Choice) (first last : Nat) : Prop :=
  ∃ before body after a b start,
    tokens = before ++ .opening :: (Pattern.tokens body ++ .closing :: after) ∧
      choices = a ++ .drop :: b ∧ Spells before a start ∧
        first = before.length ∧ last = before.length + body.tokens.length + 1

/-- The token at a position stands outside every group that is dropped. -/
def Outside (tokens : List Token) (choices : List Choice) (i : Nat) : Prop :=
  ∀ first last, Drops tokens choices first last → i < first ∨ last < i

/-- Some token that binds the name stands outside every group that is dropped. -/
def Keeps (tokens : List Token) (choices : List Choice) (name : List Char) : Prop :=
  ∃ i t, tokens[i]? = some t ∧ t.name? = some name ∧ Outside tokens choices i

/-- What is chosen at a token that is kept. -/
inductive Chosen : Token → List Choice → Prop
  | literal (c : Char) : Chosen (.literal c) []
  | segment (name value : List Char) : Chosen (.segment name) [.bind name value]
  | wildcard (value : List Char) : Chosen .wildcard [.bind Pattern.wildcardName value]
  | keep : Chosen .opening [.keep]
  | closing : Chosen .closing []

section

variable {tokens : List Token} {choices : List Choice} {first last : Nat} {name : List Char}

/-- A group is dropped behind a part where it is dropped without it. -/
theorem Drops.append {part : List Token} {a : List Choice} {start : List Char}
    (hp : Spells part a start) (h : Drops tokens choices first last) :
    Drops (part ++ tokens) (a ++ choices) (part.length + first) (part.length + last) := by
  obtain ⟨before, body, after, a', b, start', rfl, rfl, hs, rfl, rfl⟩ := h
  exact ⟨part ++ before, body, after, a ++ a', b, start ++ start', by simp, by simp, hp.append hs,
    by simp, by simp; omega⟩

/-- A group that is dropped behind a token that is kept is dropped without it. -/
theorem Drops.of_cons {t : Token} {a : List Choice} (ht : Chosen t a)
    (h : Drops (t :: tokens) (a ++ choices) first last) :
    ∃ f l, first = f + 1 ∧ last = l + 1 ∧ Drops tokens choices f l := by
  obtain ⟨before, body, after, c, b, start, hd, hc, hs, rfl, rfl⟩ := h
  rcases before with _ | ⟨s, before⟩
  · cases hs
    cases ht with
    | keep => cases hc
    | _ => cases hd
  · obtain ⟨rfl, rfl⟩ := List.cons.inj hd
    refine ⟨before.length, before.length + body.tokens.length + 1, rfl, by simp; omega, ?_⟩
    cases ht with
    | literal x =>
      cases hs with
      | literal x hs => exact ⟨before, body, after, c, b, _, rfl, hc, hs, rfl, rfl⟩
    | segment name value =>
      cases hs with
      | segment name hne hv hs =>
        obtain ⟨-, rfl⟩ := List.cons.inj hc
        exact ⟨before, body, after, _, b, _, rfl, rfl, hs, rfl, rfl⟩
    | wildcard value =>
      cases hs with
      | wildcard hne hs =>
        obtain ⟨-, rfl⟩ := List.cons.inj hc
        exact ⟨before, body, after, _, b, _, rfl, rfl, hs, rfl, rfl⟩
    | keep =>
      cases hs with
      | keep hs =>
        obtain ⟨-, rfl⟩ := List.cons.inj hc
        exact ⟨before, body, after, _, b, _, rfl, rfl, hs, rfl, rfl⟩
      | drop _ hs => cases hc
    | closing =>
      cases hs with
      | closing hs => exact ⟨before, body, after, c, b, _, rfl, hc, hs, rfl, rfl⟩

/-- A group that is dropped in front of tokens is all that is dropped up to its end. -/
theorem Drops.of_group {body : Pattern}
    (h : Drops (.opening :: (body.tokens ++ .closing :: tokens)) (.drop :: choices) first last) :
    (first = 0 ∧ last = body.tokens.length + 1) ∨ ∃ f l, first = body.tokens.length + 2 + f ∧
      last = body.tokens.length + 2 + l ∧ Drops tokens choices f l := by
  obtain ⟨before, inner, after, c, b, start, hd, hc, hs, rfl, rfl⟩ := h
  rcases before with _ | ⟨s, before⟩
  · obtain ⟨hb, -⟩ := Token.tokens_closing_inj (List.cons.inj hd).2
    exact .inl ⟨rfl, by simp [hb]⟩
  · obtain ⟨rfl, ht⟩ := List.cons.inj hd
    cases hs with
    | keep hs => cases hc
    | @drop other before c _ hs =>
      obtain ⟨-, rfl⟩ := List.cons.inj hc
      rw [List.append_eq, List.append_assoc, List.cons_append] at ht
      obtain ⟨hb, rfl⟩ := Token.tokens_closing_inj ht
      rw [hb]
      refine .inr ⟨before.length, before.length + inner.tokens.length + 1, ?_, ?_,
        before, inner, after, c, b, _, rfl, rfl, hs, rfl, rfl⟩
      · simp only [List.length_cons, List.length_append]
        omega
      · simp only [List.length_cons, List.length_append]
        omega

theorem outside_cons_zero {t : Token} {a : List Choice} (ht : Chosen t a) :
    Outside (t :: tokens) (a ++ choices) 0 := by
  intro first last h
  obtain ⟨f, -, rfl, -⟩ := h.of_cons ht
  exact .inl (Nat.succ_pos f)

theorem outside_cons_succ_iff {t : Token} {a : List Choice} {start : List Char} (ht : Chosen t a)
    (hs : Spells [t] a start) {i : Nat} :
    Outside (t :: tokens) (a ++ choices) (i + 1) ↔ Outside tokens choices i := by
  constructor
  · intro h first last hd
    have := h _ _ (hd.append hs)
    simp only [List.length_singleton] at this
    omega
  · intro h first last hd
    obtain ⟨f, l, rfl, rfl, hd'⟩ := hd.of_cons ht
    have := h f l hd'
    omega

/-- A token that is kept binds its own name. -/
theorem keeps_cons_iff {t : Token} {a : List Choice} {start : List Char} (ht : Chosen t a)
    (hs : Spells [t] a start) :
    Keeps (t :: tokens) (a ++ choices) name ↔ t.name? = some name ∨ Keeps tokens choices name := by
  constructor
  · rintro ⟨_ | i, u, hu, hn, ho⟩
    · cases hu
      exact .inl hn
    · exact .inr ⟨i, u, hu, hn, (outside_cons_succ_iff ht hs).1 ho⟩
  · rintro (hn | ⟨i, u, hu, hn, ho⟩)
    · exact ⟨0, t, rfl, hn, outside_cons_zero ht⟩
    · exact ⟨i + 1, u, hu, hn, (outside_cons_succ_iff ht hs).2 ho⟩

/-- A group that is dropped binds nothing. -/
theorem keeps_group_iff (body : Pattern) :
    Keeps (.opening :: (body.tokens ++ .closing :: tokens)) (.drop :: choices) name ↔
      Keeps tokens choices name := by
  have hg : .opening :: (body.tokens ++ .closing :: tokens) =
      (.opening :: (body.tokens ++ [.closing])) ++ tokens := by simp
  have hl : (Token.opening :: (body.tokens ++ [.closing])).length = body.tokens.length + 2 := by
    simp
  have hs : Spells (.opening :: (body.tokens ++ [.closing])) [.drop] [] := .drop body .nil
  constructor
  · rintro ⟨i, t, ht, hn, ho⟩
    have hi : body.tokens.length + 2 ≤ i := by
      have := ho 0 (body.tokens.length + 1)
        ⟨[], body, tokens, [], choices, [], rfl, rfl, .nil, rfl, by simp⟩
      omega
    rw [hg, List.getElem?_append_right (by omega), hl] at ht
    refine ⟨_, t, ht, hn, fun first last hd => ?_⟩
    have := ho _ _ (hg ▸ hd.append hs)
    omega
  · rintro ⟨i, t, ht, hn, ho⟩
    refine ⟨body.tokens.length + 2 + i, t, ?_, hn, fun first last hd => ?_⟩
    · rw [hg, List.getElem?_append_right (by omega), hl, Nat.add_sub_cancel_left]
      exact ht
    · obtain ⟨rfl, rfl⟩ | ⟨f, l, rfl, rfl, hd'⟩ := hd.of_group
      · exact .inr (by omega)
      · have := ho f l hd'
        omega

end

namespace Spells

variable {tokens : List Token} {choices : List Choice} {path : List Char}

/-- A name is bound where one of its tokens stands outside the groups that are dropped. -/
theorem bound_iff (h : Spells tokens choices path) (name : List Char) :
    (∃ value, .bind name value ∈ choices) ↔ Keeps tokens choices name := by
  induction h with
  | nil => simp [Keeps]
  | literal c _ ih =>
    rw [ih]
    exact ((keeps_cons_iff (.literal c) (.literal c .nil)).trans (by simp)).symm
  | @segment other value _ _ _ hne hv _ ih =>
    refine .trans ?_ (keeps_cons_iff (.segment other value) (.segment other hne hv .nil)).symm
    rw [← ih]
    simp [exists_or, eq_comm]
  | @wildcard value _ _ _ hne _ ih =>
    refine .trans ?_ (keeps_cons_iff (.wildcard value) (.wildcard hne .nil)).symm
    rw [← ih]
    simp [exists_or, eq_comm]
  | keep _ ih =>
    refine .trans ?_ (keeps_cons_iff .keep (.keep .nil)).symm
    rw [← ih]
    simp
  | closing _ ih =>
    rw [ih]
    exact ((keeps_cons_iff .closing (.closing .nil)).trans (by simp)).symm
  | drop body _ ih =>
    rw [keeps_group_iff, ← ih]
    simp

/-- The names that are bound are some of those of the parameters, in their order. -/
theorem names_sublist (h : Spells tokens choices path) :
    ((choices.filterMap Choice.pair?).map Prod.fst).Sublist
      ((Token.names tokens).map String.ofList) := by
  induction h with
  | nil => exact .slnil
  | literal c _ ih => exact ih
  | segment name hne hv _ ih => exact ih.cons_cons _
  | wildcard hne _ ih => exact ih.cons_cons _
  | keep _ ih => exact ih
  | closing _ ih => exact ih
  | drop body _ ih =>
    refine ih.trans ?_
    simp

end Spells

/-- The parameters of a derivation have the names of the tokens outside the groups it drops. -/
theorem Derivation.isSome_get?_params {tokens : List Token} {url : List Char}
    (d : Derivation tokens url) (name : String) :
    (d.params.get? name).isSome = true ↔ Keeps tokens d.choices name.toList := by
  rw [Params.isSome_get?_iff, ← d.spells.bound_iff, Params.names, List.mem_map]
  constructor
  · rintro ⟨pair, hp, rfl⟩
    obtain ⟨choice, hc, hp⟩ := List.mem_filterMap.1 hp
    cases choice with
    | bind name value =>
      cases hp
      exact ⟨value, by simpa using hc⟩
    | _ => cases hp
  · rintro ⟨value, hc⟩
    exact ⟨(name, String.ofList value), List.mem_filterMap.2 ⟨_, hc, by simp [Choice.pair?]⟩, rfl⟩

/-- All views of parameters show the rightmost pair of a name. The parameters of a match have the
names of the tokens outside the groups that the match drops, in pattern order. -/
theorem Params.views_agree (call : α → γ → Params → β) :
    (∀ (p : Params) (name : String),
      (p.contains name = true ↔ (p.get? name).isSome = true) ∧
      ((p.get? name).isSome = true ↔ name ∈ p.toMap) ∧
      p.get? name = p.toMap[name]? ∧
      ∀ value, p.get? name = some value ↔ p.Rightmost name value) ∧
    (∀ p : Params, p.iter.toList = p.pairs ∧
      p.toMap.size = p.names.toFinset.card ∧
      (p.toMap.size < p.size ↔ ∃ name, 1 < p.names.count name)) ∧
    ∀ (source : String) (c : Compiled), compile source = .ok c → ∀ url : String,
      (∀ params, c.captures url = some params → params.names.Sublist c.names ∧
        ∃ d : Derivation (Token.scan source.toList) url.toList, d.IsFirst ∧ params = d.params ∧
          ∀ name : String, (params.get? name).isSome = true ↔
            ∃ i t, (Token.scan source.toList)[i]? = some t ∧ t.name? = some name.toList ∧
              Outside (Token.scan source.toList) d.choices i) ∧
      ∀ t : Table α, t.Reachable call → ∀ m, (t.find url).answer = .ok (some m) →
        m.pattern = source → c.captures url = some m.params := by
  refine ⟨fun p name => ⟨by rw [contains_eq_isSome_get?], ?_, (p.getElem?_toMap name).symm,
    fun value => get?_eq_some_iff⟩, fun p => ⟨List.toList_iter, p.size_toMap, size_toMap_lt_iff⟩,
    fun source c hc url => ⟨fun params hp => ?_, ?_⟩⟩
  · rw [isSome_get?_iff, mem_toMap_iff]
  · obtain ⟨hn, -⟩ | ⟨d, hd, hx⟩ := Compiled.extract_cases hc url.toList
    · rw [Compiled.captures, hn] at hp
      cases hp
    · rw [Compiled.captures, hx] at hp
      cases hp
      refine ⟨?_, d, hd, rfl, d.isSome_get?_params⟩
      rw [Compiled.names_eq hc]
      exact d.spells.names_sublist
  · rintro t ht m hm rfl
    obtain ⟨c', hc', hx⟩ := Table.extract_of_find ht.valid hm
    rw [hc] at hc'
    cases hc'
    rw [Compiled.captures, hx]
    rfl

theorem Params.views_agree_dropped :
    (⟨[("a", "x"), ("path", "y"), ("a", "z")]⟩ : Params).toMap["a"]? = some "z" ∧
      ∃ c, compile "/:a(.:b)(/:b)" = .ok c ∧
        c.captures "/x/y" = some ⟨[("a", "x"), ("b", "y")]⟩ ∧
        ∃ d : Derivation (Token.scan "/:a(.:b)(/:b)".toList) "/x/y".toList, d.IsFirst ∧
          d.params = ⟨[("a", "x"), ("b", "y")]⟩ ∧
          ∃ i t, (Token.scan "/:a(.:b)(/:b)".toList)[i]? = some t ∧ t.name? = some ['b'] ∧
            Outside (Token.scan "/:a(.:b)(/:b)".toList) d.choices i := by
  obtain ⟨hv, -, hm⟩ := Params.views_agree fun (value : Nat) () _ => value
  obtain ⟨c, hc, hx⟩ : ∃ c, compile "/:a(.:b)(/:b)" = .ok c ∧
      c.captures "/x/y" = some ⟨[("a", "x"), ("b", "y")]⟩ := ⟨_, rfl, by decide +kernel⟩
  obtain ⟨-, d, hd, hp, hn⟩ := (hm _ c hc "/x/y").1 _ hx
  refine ⟨?_, c, hc, hx, d, hd, hp.symm, (hn "b").1 (by decide)⟩
  rw [← (hv _ "a").2.2.1]
  exact (hv _ "a").2.2.2 "z" |>.2 ⟨[("a", "x"), ("path", "y")], [], rfl, nofun⟩

end PathRouting
