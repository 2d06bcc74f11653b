import PathRouting.Proofs.Matching
import PathRouting.Proofs.Table.Valid

/-!
# The first derivation is reported

A url can have many derivations from the tokens of a pattern. One of them comes before all others,
and it is the one that is reported, by the compiled pattern as well as by a lookup in a table: the
match is that of a search that tries all there is, a kept group before a dropped one and a longer
value before a shorter one.
-/

namespace PathRouting

variable {α β γ : Type}

/-- What a listing finds is what its pattern, compiled, reports. -/
theorem Listing.extract_of_find {url : String} {m : Match α} :
    ∀ {l : Listing α}, find url l = .ok (some m) →
      ∃ c, compile m.pattern = .ok c ∧ c.extract url.toList = some (m.params, m.query)
  | [], h => by cases h
  | e :: l, h => by
    rw [find, scan] at h
    split at h
    · cases h
    · next c hc =>
      split at h
      · next found hf =>
        obtain ⟨a, ha, rfl⟩ := Option.map_eq_some_iff.1 hf
        cases h
        exact ⟨c, hc, ha⟩
      · exact extract_of_find h

theorem Table.extract_of_find {t : Table α} (h : t.Valid) {url : String} {m : Match α}
    (hm : (t.find url).answer = .ok (some m)) :
    ∃ c, compile m.pattern = .ok c ∧ c.extract url.toList = some (m.params, m.query) :=
  Listing.extract_of_find ((refines_find h url).answer_eq.symm.trans hm)

/-- A compiled pattern reports what the exhaustive search finds. If a url has a derivation, then one
comes before all others, and it is reported by the pattern and by the lookups that it wins. -/
theorem Compiled.first_derivation_reported (call : α → γ → Params → β) {source : String}
    {c : Compiled} (h : compile source = .ok c) :
    (∀ url, c.extract url = (c.pattern.search Captures.ofRest url).map Captures.found) ∧
      ∀ url : String, Nonempty (Derivation (Token.scan source.toList) url.toList) →
        ∃ first : Derivation (Token.scan source.toList) url.toList,
          first.IsFirst ∧ (∀ e : Derivation _ _, e.IsFirst → e = first) ∧
            c.captures url = some first.params ∧
            c.extract url.toList = some (first.params, first.query) ∧
            ∀ t : Table α, t.Reachable call → ∀ m, (t.find url).answer = .ok (some m) →
              m.pattern = source → m.params = first.params ∧ m.query = first.query := by
  refine ⟨c.extract_eq_map_found, fun url hd => ?_⟩
  rcases extract_cases h url.toList with ⟨-, hn⟩ | ⟨first, hf, he⟩
  · exact absurd hd hn
  · refine ⟨first, hf, fun e => hf.eq, by rw [captures, he]; rfl, he, ?_⟩
    rintro t ht m hm rfl
    obtain ⟨c', hc', hx⟩ := Table.extract_of_find ht.valid hm
    rw [h] at hc'
    cases hc'
    rw [he, Option.some.injEq, Prod.mk.injEq] at hx
    exact ⟨hx.1.symm, hx.2.symm⟩

theorem Compiled.first_derivation_reported_group :
    ∃ first : Derivation (Token.scan "(/a)*".toList) "/a/b?q".toList,
      first.IsFirst ∧ first.params = ⟨[("path", "/b?q")]⟩ ∧ first.query = none ∧
        ((Table.ofList [("(/a)*", 1)]).find "/a/b?q").answer =
          .ok (some ⟨1, "/a/b?q", "(/a)*", ⟨[("path", "/b?q")]⟩, none⟩) := by
  obtain ⟨c, hc, hx⟩ : ∃ c, compile "(/a)*" = .ok c ∧
      c.extract "/a/b?q".toList = some (⟨[("path", "/b?q")]⟩, none) :=
    ⟨_, rfl, by decide +kernel⟩
  have hs : Spells (Token.scan "(/a)*".toList) [.drop, .bind Pattern.wildcardName "/a/b".toList]
      "/a/b".toList :=
    .drop ((Pattern.empty.literal '/').literal 'a') (.wildcard (by decide) .nil)
  have hd : Nonempty (Derivation (Token.scan "(/a)*".toList) "/a/b?q".toList) :=
    ⟨⟨_, _, "?q".toList, hs, rfl, .inr ⟨_, rfl⟩⟩⟩
  have hm : ((Table.ofList [("(/a)*", 1)]).find "/a/b?q").answer =
      .ok (some ⟨1, "/a/b?q", "(/a)*", ⟨[("path", "/b?q")]⟩, none⟩) := by
    rw [(Table.refines_find (Table.valid_ofList _) _).answer_eq, Table.listing_ofList]
    simp only [Listing.extend, List.foldl_cons, List.foldl_nil, Listing.insert, Listing.find,
      Listing.scan, hc, hx, Option.map_some]
  obtain ⟨first, hf, -, -, -, ht⟩ :=
    (Compiled.first_derivation_reported (fun (value : Nat) () _ => value) hc).2 "/a/b?q" hd
  obtain ⟨hp, hq⟩ := ht (.ofList [("(/a)*", 1)]) ⟨[("(/a)*", 1)], [], rfl⟩ _ hm rfl
  exact ⟨first, hf, hp.symm, hq.symm, hm⟩

end PathRouting
