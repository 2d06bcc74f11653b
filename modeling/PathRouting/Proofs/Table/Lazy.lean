import PathRouting.Proofs.Table.Valid

/-!
# When a pattern is compiled does not show

Whatever a run does, what a table keeps of a route is what the pattern of that route compiles to,
and the replies are those of a listing, which keeps nothing. So tables with one listing cannot be
told apart by what they answer, however much of them is compiled.
-/

namespace PathRouting.Table

variable {α β γ : Type}

/-- Of valid tables only the listings are seen. -/
theorem replies_eq_of_listings_eq (call : α → γ → Params → β) {s s' : Session (Table α)}
    (h : BothValid s) (h' : BothValid s') (hl : listings s = listings s')
    (steps : List (Step α γ)) :
    (run call s steps).1.map Prod.fst = (run call s' steps).1.map Prod.fst := by
  rw [(run_eq call steps h).1, (run_eq call steps h').1, hl]

/-- Compiled rules are those of their own patterns, and replies are those of the listing. Two pairs
of tables that are reached by any runs reply alike from then on if their listings are the same. -/
theorem lazy_compilation_unseen (call : α → γ → Params → β) :
    (∀ (routes : List (String × α)) (steps : List (Step α γ)),
      let reached := run call (.start (.ofList routes)) steps
      (∀ t ∈ [reached.2.current, reached.2.saved], ∀ r ∈ t.routes.toList, ∀ c,
        r.compiled = some c → compile r.pattern = .ok c) ∧
      (ofList routes).summary = Listing.summary (Listing.extend routes []) ∧
      reached.1.map Prod.fst =
        (Listing.run call (.start (Listing.extend routes [])) steps).1) ∧
    ∀ t u t' u' : Table α, t.Reachable call → u.Reachable call → t'.Reachable call →
      u'.Reachable call → t.listing = t'.listing → u.listing = u'.listing →
      ∀ steps : List (Step α γ),
        (run call ⟨t, u⟩ steps).1.map Prod.fst = (run call ⟨t', u'⟩ steps).1.map Prod.fst := by
  refine ⟨fun routes steps => ?_, fun t u t' u' ht hu ht' hu' hl hl' steps => ?_⟩
  · have hs := bothValid_start routes
    obtain ⟨hr, -, hv⟩ := run_eq call steps hs
    refine ⟨?_, ?_, ?_⟩
    · rintro t (_ | ⟨_, _ | ⟨_, ⟨⟩⟩⟩) r hr
      · exact hv.current.sound r hr
      · exact hv.saved.sound r hr
    · rw [← summary_listing, listing_ofList]
    · rw [hr, listings_start]
  · refine replies_eq_of_listings_eq call ⟨ht.valid, hu.valid⟩ ⟨ht'.valid, hu'.valid⟩ ?_ steps
    simp only [listings, hl, hl']

theorem lazy_compilation_unseen_compileAll :
    ∃ t t' : Table Nat, t.listing = t'.listing ∧
      ((t.routes[0]?.bind Route.compiled).isSome ∧ t'.routes[0]?.bind Route.compiled = none) ∧
      (run (fun value (_ : Unit) _ => value) ⟨t, t⟩ [.find "/a"]).1.map Prod.fst =
        (run (fun value (_ : Unit) _ => value) ⟨t', t'⟩ [.find "/a"]).1.map Prod.fst := by
  refine ⟨((ofList [("/a", 1)]).compileAll).state, ofList [("/a", 1)], ?_, ?_, ?_⟩
  · rfl
  · decide +kernel
  · refine (lazy_compilation_unseen fun value (_ : Unit) _ => value).2 _ _ _ _ ?_ ?_ ?_ ?_ ?_ ?_ _
    · exact ⟨[("/a", 1)], [.compileAll], rfl⟩
    · exact ⟨[("/a", 1)], [.compileAll], rfl⟩
    · exact ⟨[("/a", 1)], [], rfl⟩
    · exact ⟨[("/a", 1)], [], rfl⟩
    · rfl
    · rfl

end PathRouting.Table
