import PathRouting.Proofs.Parse
import PathRouting.Proofs.Ways

/-!
# A match is a derivation

A url matches if and only if it has a derivation from the tokens of the pattern, and what is
reported is what the first derivation binds (`search_cases`): it stands first among the ways of the
pattern whose rest is a query.
-/

namespace PathRouting

theorem Captures.ofRest_eq_none_iff {rest : List Char} :
    ofRest rest = none ↔ ¬(rest = [] ∨ ∃ query, rest = '?' :: query) := by
  rcases rest with _ | ⟨c, rest⟩
  · simp [ofRest]
  · simp only [ofRest]
    split
    · next hc => simp [hc]
    · next hc => simp [hc]

/-- Behind a path only the query is reported. -/
theorem Captures.found_of_ofRest {rest : List Char} {r : Captures} (h : ofRest rest = some r) :
    r.found = (⟨[]⟩, rest.tail?.map String.ofList) := by
  rcases rest with _ | ⟨c, rest⟩
  · cases h
    rfl
  · simp only [ofRest] at h
    split at h
    · cases h
      rfl
    · cases h

namespace Pattern

/-- What a way reports, if what is left of the url is a query. -/
def report (w : Way) : Option Found :=
  (Captures.ofRest w.rest).map fun r => r.found.after w.choices

theorem report_eq_some {w : Way} {found : Found} (h : report w = some found) :
    found = (⟨w.choices.filterMap Choice.pair?⟩, w.rest.tail?.map String.ofList) := by
  obtain ⟨r, hr, rfl⟩ := Option.map_eq_some_iff.1 h
  rw [Captures.found_of_ofRest hr, Found.after, List.append_nil]

theorem map_found_search (p : Pattern) (url : List Char) :
    (p.search Captures.ofRest url).map Captures.found = (p.ways url).findSome? report :=
  p.answers_search Captures.ofRest url

/-- The way of a derivation. -/
theorem mem_ways_of_derivation {p : Pattern} {url : List Char} (d : Derivation p.tokens url) :
    ⟨d.choices, d.rest⟩ ∈ p.ways url :=
  (p.lists_ways url _).2 ⟨d.path, d.url_eq, d.spells⟩

theorem report_ne_none {tokens : List Token} {url : List Char} (d : Derivation tokens url) :
    report ⟨d.choices, d.rest⟩ ≠ none := by
  rw [report, ne_eq, Option.map_eq_none_iff, Captures.ofRest_eq_none_iff]
  exact not_not_intro d.rest_eq

/-- A search fails if there is no derivation, and else reports the first one. -/
theorem search_cases (p : Pattern) (url : List Char) :
    (p.search Captures.ofRest url = none ∧ ¬Nonempty (Derivation p.tokens url)) ∨
      ∃ d : Derivation p.tokens url, d.IsFirst ∧
        (p.search Captures.ofRest url).map Captures.found = some (d.params, d.query) := by
  have hs := p.map_found_search url
  rcases hf : (p.ways url).findSome? report with _ | found
  · rw [hf, Option.map_eq_none_iff] at hs
    refine .inl ⟨hs, fun ⟨d⟩ => report_ne_none d ?_⟩
    exact List.findSome?_eq_none_iff.1 hf _ (mem_ways_of_derivation d)
  · obtain ⟨before, w, behind, hw, hr, hn⟩ := List.findSome?_eq_some_iff.1 hf
    obtain ⟨path, hu, hp⟩ := (p.lists_ways url w).1 (by simp [hw])
    have hq : w.rest = [] ∨ ∃ query, w.rest = '?' :: query := by
      refine Classical.byContradiction fun hq => ?_
      rw [report, Captures.ofRest_eq_none_iff.2 hq] at hr
      cases hr
    refine .inr ⟨⟨w.choices, path, w.rest, hp, hu, hq⟩, fun e he => ?_, ?_⟩
    · have hm := mem_ways_of_derivation e
      have ho := p.ordered_ways url
      rw [hw] at hm ho
      rcases List.mem_append.1 hm with hm | hm
      · exact absurd (hn _ hm) (report_ne_none e)
      · rcases List.mem_cons.1 hm with rfl | hm
        · have hpath : e.path = path := List.append_cancel_right (e.url_eq.symm.trans hu)
          subst hpath
          exact absurd rfl he
        · exact (List.pairwise_cons.1 (List.pairwise_append.1 ho).2.1).1 _ hm
    · rw [hs, hf, report_eq_some hr]
      rfl

end Pattern

namespace Compiled

theorem extract_eq_map_found (c : Compiled) (url : List Char) :
    c.extract url = (c.pattern.search Captures.ofRest url).map Captures.found :=
  c.extract_eq_search url

/-- A compiled pattern reports nothing if there is no derivation, and else the first one. -/
theorem extract_cases {source : String} {c : Compiled} (h : compile source = .ok c)
    (url : List Char) :
    (c.extract url = none ∧ ¬Nonempty (Derivation (Token.scan source.toList) url)) ∨
      ∃ d : Derivation (Token.scan source.toList) url, d.IsFirst ∧
        c.extract url = some (d.params, d.query) := by
  have ht := Pattern.tokens_of_ofText (of_compile_eq_ok h).2
  rw [← ht, extract_eq_map_found, Option.map_eq_none_iff]
  exact c.pattern.search_cases url

/-- The urls that match are those that have a derivation. -/
theorem isMatch_iff {source : String} {c : Compiled} (h : compile source = .ok c) (url : String) :
    c.isMatch url = true ↔ Nonempty (Derivation (Token.scan source.toList) url.toList) := by
  rw [isMatch_eq_isSome_captures, captures, Option.isSome_map]
  rcases extract_cases h url.toList with ⟨hn, he⟩ | ⟨d, -, hd⟩
  · simpa [hn] using he
  · simpa [hd] using ⟨d⟩

/-- A compiled pattern matches the urls that have a derivation, and reports all that one of them
binds and its query. -/
theorem reports_derivation {source : String} {c : Compiled} (h : compile source = .ok c)
    (url : String) :
    (c.isMatch url = true ↔ (c.captures url).isSome = true) ∧
      ((c.captures url).isSome = true ↔
        Nonempty (Derivation (Token.scan source.toList) url.toList)) ∧
      ∀ params, c.captures url = some params →
        ∃ d : Derivation (Token.scan source.toList) url.toList,
          params = d.params ∧ c.extract url.toList = some (d.params, d.query) := by
  refine ⟨by rw [isMatch_eq_isSome_captures], ?_, fun params hp => ?_⟩
  · rw [captures, Option.isSome_map]
    rcases extract_cases h url.toList with ⟨hn, he⟩ | ⟨d, -, hd⟩
    · simpa [hn] using he
    · simpa [hd] using ⟨d⟩
  · obtain ⟨hn, -⟩ | ⟨d, -, hd⟩ := extract_cases h url.toList
    · rw [captures, hn] at hp
      cases hp
    · rw [captures, hd] at hp
      exact ⟨d, (Option.some.inj hp).symm, hd⟩

theorem reports_derivation_nested :
    ∃ c, compile "/:a(/:b(.:a))" = .ok c ∧
      c.captures "/x/y.z?q" = some ⟨[("a", "x"), ("b", "y.z")]⟩ ∧
      ∃ d : Derivation (Token.scan "/:a(/:b(.:a))".toList) "/x/y.z?q".toList,
        ⟨[("a", "x"), ("b", "y.z")]⟩ = d.params ∧
          c.extract "/x/y.z?q".toList = some (d.params, d.query) := by
  refine ⟨_, rfl, ?_, ?_⟩
  · decide +kernel
  · exact (reports_derivation rfl "/x/y.z?q").2.2 _ (by decide +kernel)

end Compiled

end PathRouting
