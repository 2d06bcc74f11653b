import Mathlib.Data.List.TakeWhile
import PathRouting.Proofs.Matching
import PathRouting.Proofs.Table.FirstMatch

/-!
# The query is separated from the path

A derivation may leave a query, so a url that matches does so with any query behind it. Where the
tokens have neither a wildcard nor a literal question mark, nothing that they spell has one, and the
path of every derivation ends at the first question mark of the url (`Derivation.path_eq`). So a
derivation of one url is a derivation of every url with the same path (`Derivation.move`), the
first one is the first one there (`isFirst_move`), and what is behind the question mark changes
nothing but the query that is reported.
-/

namespace PathRouting

variable {α β γ : Type}

/-- The part of a url before its first question mark. -/
def pathOf (url : List Char) : List Char :=
  url.takeWhile (· ≠ '?')

/-- The first question mark of a url and what is behind it. -/
def tailOf (url : List Char) : List Char :=
  url.dropWhile (· ≠ '?')

/-- The text behind the first question mark of a url. -/
def queryOf? (url : List Char) : Option (List Char) :=
  (tailOf url).tail?

section Split

variable {path rest : List Char}

theorem pathOf_append_tailOf (url : List Char) : pathOf url ++ tailOf url = url :=
  List.takeWhile_append_dropWhile

theorem tailOf_eq (url : List Char) : tailOf url = [] ∨ ∃ query, tailOf url = '?' :: query := by
  rcases h : tailOf url with _ | ⟨c, rest⟩
  · exact .inl rfl
  · have hc := List.head?_dropWhile_not (· ≠ '?') url
    rw [← tailOf, h] at hc
    exact .inr ⟨rest, by simpa using hc⟩

theorem notMem_pathOf (url : List Char) : '?' ∉ pathOf url := fun h => by
  simpa using List.mem_takeWhile_imp h

theorem pathOf_append (hp : '?' ∉ path) (hr : rest = [] ∨ ∃ query, rest = '?' :: query) :
    pathOf (path ++ rest) = path := by
  have hne : ∀ c ∈ path, decide (c ≠ '?') = true := by
    intro c hc
    exact decide_eq_true fun he => hp (he ▸ hc)
  rw [pathOf, List.takeWhile_append_of_pos hne]
  rcases hr with rfl | ⟨query, rfl⟩ <;> simp

theorem tailOf_append (hp : '?' ∉ path) (hr : rest = [] ∨ ∃ query, rest = '?' :: query) :
    tailOf (path ++ rest) = rest := by
  have h := pathOf_append_tailOf (path ++ rest)
  rw [pathOf_append hp hr] at h
  exact List.append_cancel_left h

theorem pathOf_pathOf (url : List Char) : pathOf (pathOf url) = pathOf url := by
  have h := pathOf_append (notMem_pathOf url) (.inl rfl)
  rwa [List.append_nil] at h

theorem queryOf?_eq_none_iff {url : List Char} : queryOf? url = none ↔ '?' ∉ url := by
  have hu := pathOf_append_tailOf url
  rw [queryOf?]
  rcases tailOf_eq url with h | ⟨query, h⟩
  · rw [h, List.append_nil] at hu
    have hn := notMem_pathOf url
    rw [hu] at hn
    simp [h, hn]
  · have hm : '?' ∈ url := by
      rw [← hu, h]
      exact List.mem_append_right _ List.mem_cons_self
    simp [h, hm]

end Split

/-- Neither a wildcard nor a literal question mark. -/
def Token.Plain (tokens : List Token) : Prop :=
  ∀ t ∈ tokens, t ≠ .wildcard ∧ t ≠ .literal '?'

theorem Token.plain_scan {text : List Char} (hw : '*' ∉ text) (hq : '?' ∉ text) :
    Plain (scan text) := by
  have hs : ∀ t ∈ scan text, ∀ c ∈ t.source, c ∈ text := by
    intro t ht c hc
    rw [← flatMap_source_scan text]
    exact List.mem_flatMap.2 ⟨t, ht, hc⟩
  refine fun t ht => ⟨?_, ?_⟩
  · rintro rfl
    exact hw (hs _ ht _ List.mem_cons_self)
  · rintro rfl
    exact hq (hs _ ht _ List.mem_cons_self)

theorem Spells.notMem_path {tokens : List Token} {choices : List Choice} {path : List Char}
    (h : Spells tokens choices path) (hp : Token.Plain tokens) : '?' ∉ path := by
  induction h with
  | nil => simp
  | literal c _ ih =>
    obtain ⟨hc, hp⟩ := List.forall_mem_cons.1 hp
    have hne : '?' ≠ c := fun he => hc.2 (he ▸ rfl)
    simpa [hne] using ih hp
  | segment name _ hv _ ih =>
    have hv' : ∀ value : List Char, (∀ c ∈ value, c ≠ '/' ∧ c ≠ '?') → '?' ∉ value :=
      fun _ hv hm => (hv _ hm).2 rfl
    simpa [hv' _ hv] using ih (List.forall_mem_cons.1 hp).2
  | wildcard => exact absurd rfl (List.forall_mem_cons.1 hp).1.1
  | keep _ ih => exact ih (List.forall_mem_cons.1 hp).2
  | closing _ ih => exact ih (List.forall_mem_cons.1 hp).2
  | drop body _ ih =>
    have hp := (List.forall_mem_append.1 (List.forall_mem_cons.1 hp).2).2
    exact ih (List.forall_mem_cons.1 hp).2

namespace Derivation

variable {tokens : List Token} {u v : List Char}

theorem path_eq (hp : Token.Plain tokens) (d : Derivation tokens u) : d.path = pathOf u := by
  have h := pathOf_append (d.spells.notMem_path hp) d.rest_eq
  rwa [← d.url_eq, eq_comm] at h

theorem rest_eq_tailOf (hp : Token.Plain tokens) (d : Derivation tokens u) :
    d.rest = tailOf u := by
  have h := tailOf_append (d.spells.notMem_path hp) d.rest_eq
  rwa [← d.url_eq, eq_comm] at h

/-- A derivation of a url as one of another url with the same path. -/
def move (hp : Token.Plain tokens) (h : pathOf u = pathOf v) (d : Derivation tokens u) :
    Derivation tokens v where
  choices := d.choices
  path := d.path
  rest := tailOf v
  spells := d.spells
  url_eq := by rw [d.path_eq hp, h, pathOf_append_tailOf]
  rest_eq := tailOf_eq v

theorem isFirst_move (hp : Token.Plain tokens) (h : pathOf u = pathOf v)
    {d : Derivation tokens u} (hd : d.IsFirst) : (d.move hp h).IsFirst := by
  intro e hne
  refine hd (e.move hp h.symm) fun he => hne ?_
  have hc : (e.move hp h.symm).choices = d.choices := congrArg choices he
  exact eq_of_rest_eq hc (e.rest_eq_tailOf hp)

end Derivation

namespace Compiled

variable {source : String} {c : Compiled}

/-- What a plain pattern binds depends on the path alone. -/
theorem map_fst_extract (h : compile source = .ok c) (hp : Token.Plain (Token.scan source.toList))
    {u v : List Char} (huv : pathOf u = pathOf v) :
    (c.extract u).map Prod.fst = (c.extract v).map Prod.fst := by
  rcases extract_cases h u with ⟨hu, hn⟩ | ⟨d, hd, hu⟩ <;>
    rcases extract_cases h v with ⟨hv, hn'⟩ | ⟨e, he, hv⟩
  · rw [hu, hv]
  · exact absurd ⟨e.move hp huv.symm⟩ hn
  · exact absurd ⟨d.move hp huv⟩ hn'
  · rw [hu, hv, (Derivation.isFirst_move hp huv hd).eq he]
    rfl

/-- The query that a plain pattern reports starts behind the first question mark. -/
theorem query_of_extract (h : compile source = .ok c)
    (hp : Token.Plain (Token.scan source.toList)) {url : List Char} {found : Found}
    (hf : c.extract url = some found) : found.2 = (queryOf? url).map String.ofList := by
  rcases extract_cases h url with ⟨hn, -⟩ | ⟨d, -, hd⟩
  · rw [hn] at hf
    cases hf
  · rw [hd] at hf
    cases hf
    rw [Derivation.query, d.rest_eq_tailOf hp, queryOf?]

theorem isMatch_append_query (h : compile source = .ok c) {url : String}
    (hm : c.isMatch url = true) (query : String) : c.isMatch (url ++ "?" ++ query) = true := by
  obtain ⟨d⟩ := (isMatch_iff h url).1 hm
  refine (isMatch_iff h _).2 ⟨⟨d.choices, d.path, d.rest ++ '?' :: query.toList, d.spells, ?_, ?_⟩⟩
  · simp [String.toList_append, d.url_eq]
  · rcases d.rest_eq with hr | ⟨q, hr⟩
    · exact .inr ⟨query.toList, by rw [hr, List.nil_append]⟩
    · exact .inr ⟨q ++ '?' :: query.toList, by rw [hr, List.cons_append]⟩

end Compiled

namespace Listing

/-- Lookups of urls with the same path find the same route with the same parameters. -/
theorem find_of_pathOf_eq {u v : String} (huv : pathOf u.toList = pathOf v.toList) :
    ∀ {l : Listing α}, (∀ p ∈ l.map Prod.fst, compiles p = true ∧
      Token.Plain (Token.scan p.toList)) →
      ∃ found found', find u l = .ok found ∧ find v l = .ok found' ∧
        found.map (fun m => (m.value, m.pattern, m.params)) =
          found'.map fun m => (m.value, m.pattern, m.params)
  | [], _ => ⟨none, none, rfl, rfl, rfl⟩
  | e :: l, h => by
    obtain ⟨⟨hc, hp⟩, hl⟩ := List.forall_mem_cons.1 h
    have ih := find_of_pathOf_eq huv hl
    rcases he : compile e.1 with error | c
    · rw [compiles_of_error he] at hc
      cases hc
    · have hx := Compiled.map_fst_extract he hp huv
      rcases hu : c.extract u.toList with _ | found <;>
        rcases hv : c.extract v.toList with _ | found' <;> rw [hu, hv] at hx
      · rwa [find_cons_of_none he hu, find_cons_of_none he hv]
      · cases hx
      · cases hx
      · refine ⟨_, _, find_cons_of_some he hu l, find_cons_of_some he hv l, ?_⟩
        simpa using hx

end Listing

/-- A query behind a url that matches changes nothing about that. A pattern without a wildcard and a
question mark matches what it matches of the path alone, binds the same there, and reports the text
behind the first question mark; and tables of such patterns look up urls by their paths. -/
theorem query_separated_from_path (call : α → γ → Params → β) :
    (∀ source c, compile source = .ok c →
      (∀ url query, c.isMatch url = true → c.isMatch (url ++ "?" ++ query) = true) ∧
      ('*' ∉ source.toList → '?' ∉ source.toList → ∀ url : String,
        c.isMatch url = c.isMatch (String.ofList (pathOf url.toList)) ∧
        c.captures url = c.captures (String.ofList (pathOf url.toList)) ∧
        ∀ params query, c.extract url.toList = some (params, query) →
          query = (queryOf? url.toList).map String.ofList ∧
          (query = none ↔ '?' ∉ url.toList))) ∧
    ∀ t : Table α, t.Reachable call →
      (∀ p ∈ t.patterns, compiles p = true ∧ '*' ∉ p.toList ∧ '?' ∉ p.toList) →
        ∀ u v : String, pathOf u.toList = pathOf v.toList →
          ∃ found found', (t.find u).answer = .ok found ∧ (t.find v).answer = .ok found' ∧
            found.map (fun m => (m.value, m.pattern, m.params)) =
              found'.map fun m => (m.value, m.pattern, m.params) := by
  refine ⟨fun source c h => ⟨fun url query hm => Compiled.isMatch_append_query h hm query,
    fun hw hq url => ?_⟩, fun t ht hp u v huv => ?_⟩
  · have hp := Token.plain_scan hw hq
    have hx : c.captures url = c.captures (String.ofList (pathOf url.toList)) := by
      rw [Compiled.captures, Compiled.captures, String.toList_ofList]
      exact Compiled.map_fst_extract h hp (pathOf_pathOf url.toList).symm
    refine ⟨?_, hx, fun params query hf => ?_⟩
    · rw [c.isMatch_eq_isSome_captures, c.isMatch_eq_isSome_captures, hx]
    · obtain rfl : query = _ := Compiled.query_of_extract h hp hf
      exact ⟨rfl, by rw [Option.map_eq_none_iff, queryOf?_eq_none_iff]⟩
  · rw [(Table.refines_find ht.valid u).answer_eq, (Table.refines_find ht.valid v).answer_eq]
    refine Listing.find_of_pathOf_eq huv fun p hm => ?_
    rw [Table.map_fst_listing] at hm
    exact ⟨(hp p hm).1, Token.plain_scan (hp p hm).2.1 (hp p hm).2.2⟩

theorem query_separated_from_path_group :
    ∃ c, compile "/u(/:x)" = .ok c ∧ c.isMatch ("/u/1" ++ "?" ++ "a?b") = true ∧
      c.captures "/u/1?a?b" = c.captures "/u/1" ∧
      ∃ found found',
        ((Table.ofList [("/u", 1), ("/u(/:x)", 2)]).find "/u/1?a").answer = .ok found ∧
        ((Table.ofList [("/u", 1), ("/u(/:x)", 2)]).find "/u/1").answer = .ok found' ∧
        found.map (fun m => (m.value, m.pattern, m.params)) =
          found'.map fun m => (m.value, m.pattern, m.params) := by
  obtain ⟨hc, ht⟩ := query_separated_from_path fun (value : Nat) () _ => value
  refine ⟨_, rfl, ?_, ?_, ?_⟩
  · exact (hc "/u(/:x)" _ rfl).1 "/u/1" "a?b" (by decide +kernel)
  · exact ((hc "/u(/:x)" _ rfl).2 (by decide) (by decide) "/u/1?a?b").2.1
  · exact ht (.ofList [("/u", 1), ("/u(/:x)", 2)]) ⟨[("/u", 1), ("/u(/:x)", 2)], [], rfl⟩
      (by decide +kernel) "/u/1?a" "/u/1" (by decide)

end PathRouting
