import PathRouting.Proofs.Priority
import PathRouting.Proofs.Scanning

/-!
# A trailing wildcard takes the rest

A url can have derivations that end a trailing wildcard at a question mark and leave a query. The
wildcard could take that query as well, and with the longer value the derivation comes before, so
the first one leaves nothing (`Derivation.IsFirst.rest_eq_nil`). What stands before the wildcard has
no part in this: the two derivations choose the same there.
-/

namespace PathRouting

variable {α β γ : Type}

namespace Spells

variable {tokens : List Token} {choices : List Choice} {path value : List Char}

theorem trailing (h : Spells tokens choices path) (hne : value ≠ []) :
    Spells (tokens ++ [.wildcard]) (choices ++ [.bind Pattern.wildcardName value])
      (path ++ value) := by
  simpa using h.append (.wildcard hne .nil)

theorem exists_of_trailing {p : Pattern} (h : Spells (p.tokens ++ [.wildcard]) choices path) :
    ∃ before start value, choices = before ++ [.bind Pattern.wildcardName value] ∧
      path = start ++ value ∧ value ≠ [] ∧ Spells p.tokens before start := by
  obtain ⟨before, _, start, _, rfl, rfl, hs, hw⟩ := h.split p
  cases hw with
  | @wildcard value _ _ _ hne hn =>
    cases hn
    exact ⟨before, start, value, rfl, by simp, hne, hs⟩

end Spells

namespace Derivation

variable {p : Pattern} {url : List Char}

theorem exists_of_trailing (d : Derivation (p.tokens ++ [.wildcard]) url) :
    ∃ before start value, d.choices = before ++ [.bind Pattern.wildcardName value] ∧
      url = start ++ (value ++ d.rest) ∧ value ≠ [] ∧ Spells p.tokens before start := by
  obtain ⟨before, start, value, hc, hp, hne, hs⟩ := d.spells.exists_of_trailing
  have hu : d.path ++ d.rest = start ++ (value ++ d.rest) := by rw [hp, List.append_assoc]
  exact ⟨before, start, value, hc, d.url_eq.trans hu, hne, hs⟩

/-- The derivation whose wildcard takes all that is left. -/
def trailing {before : List Choice} {start rest : List Char} (hs : Spells p.tokens before start)
    (hne : rest ≠ []) (hu : url = start ++ rest) : Derivation (p.tokens ++ [.wildcard]) url where
  choices := before ++ [.bind Pattern.wildcardName rest]
  path := start ++ rest
  rest := []
  spells := hs.trailing hne
  url_eq := by rw [hu, List.append_nil]
  rest_eq := .inl rfl

theorem nonempty_trailing_iff : Nonempty (Derivation (p.tokens ++ [.wildcard]) url) ↔
    ∃ start rest choices, url = start ++ rest ∧ rest ≠ [] ∧ Spells p.tokens choices start := by
  constructor
  · rintro ⟨d⟩
    obtain ⟨choices, start, value, -, hu, hne, hs⟩ := d.exists_of_trailing
    exact ⟨start, value ++ d.rest, choices, hu, List.append_ne_nil_of_left_ne_nil hne _, hs⟩
  · rintro ⟨start, rest, choices, hu, hne, hs⟩
    exact ⟨trailing hs hne hu⟩

/-- The first derivation leaves nothing behind the wildcard. -/
theorem IsFirst.rest_eq_nil {d : Derivation (p.tokens ++ [.wildcard]) url} (h : d.IsFirst) :
    d.rest = [] := by
  obtain ⟨before, start, value, hc, hu, hne, hs⟩ := d.exists_of_trailing
  refine Classical.byContradiction fun hr => ?_
  -- The same choices, but for the wildcard, which takes the query as well.
  let e := trailing hs (List.append_ne_nil_of_left_ne_nil hne d.rest) hu
  have hlt : value.length < (value ++ d.rest).length := by
    have := List.length_pos_iff.2 hr
    rw [List.length_append]
    omega
  have hed : Precedes e.choices d.choices := by
    rw [hc]
    exact (Precedes.longer [] [] hlt).append_left before
  exact hed.asymm (h e fun he => hr (congrArg rest he).symm)

end Derivation

/-- A pattern whose last token is a wildcard has the tokens of a pattern before it. -/
theorem Pattern.exists_of_tokens_eq {p : Pattern} {tokens : List Token}
    (h : p.tokens = tokens ++ [.wildcard]) : ∃ before : Pattern, before.tokens = tokens := by
  cases p with
  | empty => simp at h
  | wildcard before => exact ⟨before, by simpa using h⟩
  | literal before c | segment before name =>
    simp at h
  | group before body =>
    rw [tokens_group, ← List.cons_append, ← List.append_assoc] at h
    cases List.append_inj_right' h rfl

namespace Compiled

variable {source : String} {c : Compiled}

theorem tokens_of_trailing (h : compile (source ++ "*") = .ok c) :
    ∃ before : Pattern, before.tokens = Token.scan source.toList ∧
      Token.scan (source ++ "*").toList = before.tokens ++ [.wildcard] := by
  have hs : Token.scan (source ++ "*").toList = Token.scan source.toList ++ [.wildcard] := by
    rw [String.toList_append]
    exact Token.scan_append (Token.joins_cons_eq_false (by decide) source.toList [])
  have ht := Pattern.tokens_of_ofText (of_compile_eq_ok h).2
  rw [hs] at ht
  obtain ⟨before, hb⟩ := Pattern.exists_of_tokens_eq ht
  exact ⟨before, hb, by rw [hs, hb]⟩

/-- A pattern with a wildcard at its end matches where what is before the wildcard spells the start
of the url and something is left. It reports all that is left as the last parameter and never a
query, and so do the lookups that it wins. -/
theorem trailing_wildcard_takes_rest (call : α → γ → Params → β)
    (h : compile (source ++ "*") = .ok c) (url : String) :
    (c.isMatch url = true ↔ ∃ start rest choices, url.toList = start ++ rest ∧ rest ≠ [] ∧
      Spells (Token.scan source.toList) choices start) ∧
    (∀ params query, c.extract url.toList = some (params, query) → query = none ∧
      ∃ start rest choices, url.toList = start ++ rest ∧ rest ≠ [] ∧
        Spells (Token.scan source.toList) choices start ∧
        params.pairs = choices.filterMap Choice.pair? ++ [("path", String.ofList rest)]) ∧
    ∀ t : Table α, t.Reachable call → ∀ m, (t.find url).answer = .ok (some m) →
      m.pattern = source ++ "*" → m.query = none ∧
        ∃ rest, rest ≠ [] ∧ rest <:+ url.toList ∧
          m.params.pairs.getLast? = some ("path", String.ofList rest) := by
  obtain ⟨before, hb, hs⟩ := tokens_of_trailing h
  have hm := isMatch_iff h url
  have hx := extract_cases h url.toList
  rw [hs] at hm hx
  rw [← hb]
  have he : ∀ params query, c.extract url.toList = some (params, query) → query = none ∧
      ∃ start rest choices, url.toList = start ++ rest ∧ rest ≠ [] ∧
        Spells before.tokens choices start ∧
        params.pairs = choices.filterMap Choice.pair? ++ [("path", String.ofList rest)] := by
    intro params query hf
    rcases hx with ⟨hn, -⟩ | ⟨d, hd, hd'⟩
    · rw [hn] at hf
      cases hf
    · rw [hd'] at hf
      cases hf
      have hr := hd.rest_eq_nil
      obtain ⟨choices, start, value, hc, hu, hne, hs⟩ := d.exists_of_trailing
      refine ⟨by rw [Derivation.query, hr]; rfl, start, value, choices, ?_, hne, hs, ?_⟩
      · rwa [hr, List.append_nil] at hu
      · rw [Derivation.params, hc, List.filterMap_append]
        rfl
  refine ⟨hm.trans Derivation.nonempty_trailing_iff, he, fun t ht m hf hp => ?_⟩
  obtain ⟨c', hc', hf⟩ := Table.extract_of_find ht.valid hf
  rw [hp, h] at hc'
  cases hc'
  obtain ⟨hq, start, rest, choices, hu, hne, -, hl⟩ := he _ _ hf
  refine ⟨hq, rest, hne, ⟨start, hu.symm⟩, ?_⟩
  rw [hl, List.getLast?_concat]

theorem trailing_wildcard_takes_rest_group :
    ∃ c, compile ("/u(/:id)/" ++ "*") = .ok c ∧ c.isMatch "/u/7/a?b/c" = true ∧
      c.extract "/u/7/a?b/c".toList = some (⟨[("id", "7"), ("path", "a?b/c")]⟩, none) ∧
      ∃ start rest choices, "/u/7/a?b/c".toList = start ++ rest ∧ rest ≠ [] ∧
        Spells (Token.scan "/u(/:id)/".toList) choices start ∧
        [("id", "7"), ("path", "a?b/c")] =
          choices.filterMap Choice.pair? ++ [("path", String.ofList rest)] := by
  obtain ⟨c, hc, hx⟩ : ∃ c, compile ("/u(/:id)/" ++ "*") = .ok c ∧
      c.extract "/u/7/a?b/c".toList = some (⟨[("id", "7"), ("path", "a?b/c")]⟩, none) :=
    ⟨_, rfl, by decide +kernel⟩
  obtain ⟨hm, he, -⟩ :=
    trailing_wildcard_takes_rest (fun (value : Nat) () _ => value) hc "/u/7/a?b/c"
  have hv : ∀ c ∈ ['7'], c ≠ '/' ∧ c ≠ '?' := by simp
  have hs : Spells (Token.scan "/u(/:id)/".toList)
      [.keep, .bind "id".toList ['7']] "/u/7/".toList :=
    .literal '/' <| .literal 'u' <| .keep <| .literal '/' <|
      .segment "id".toList (by simp) hv <| .closing <| .literal '/' .nil
  have hu : "/u/7/a?b/c".toList = "/u/7/".toList ++ "a?b/c".toList := rfl
  exact ⟨c, hc, hm.2 ⟨_, _, _, hu, by decide, hs⟩, hx, (he _ _ hx).2⟩

end Compiled

end PathRouting
