import PathRouting.Table.Basic

/-!
# Compiling all patterns twice

A scan that has been made leaves nothing to compile before the place where it ended, so the same
scan made again answers the same and leaves the table as it is (`scan_scan`).
-/

namespace PathRouting

variable {α β : Type}

namespace Route

theorem answer_force_force (r : Route α) : r.force.state.force.answer = r.force.answer := by
  rcases hc : r.compiled with _ | c
  · rcases ha : attempt r.pattern with ⟨_ | c, event⟩
    · simp [force, hc, ha]
    · simp [force, hc, ha, Outcome.quiet]
  · simp [force, hc, Outcome.quiet]

theorem state_force_force (r : Route α) : r.force.state.force.state = r.force.state := by
  rcases hc : r.compiled with _ | c
  · rcases ha : attempt r.pattern with ⟨_ | c, event⟩
    · simp [force, hc, ha]
    · simp [force, hc, ha, Outcome.quiet]
  · simp [force, hc, Outcome.quiet]

/-- A probe that does not look at what is kept of a route answers twice alike. -/
theorem scan_scan (probe : Route α → Compiled → Option β)
    (hp : ∀ r c, probe r.force.state c = probe r c) : ∀ routes : List (Route α),
      (scan probe (scan probe routes).state).answer = (scan probe routes).answer ∧
      (scan probe (scan probe routes).state).state = (scan probe routes).state
  | [] => ⟨rfl, rfl⟩
  | r :: routes => by
    have ha := answer_force_force r
    have hs := state_force_force r
    rcases hf : r.force.answer with e | c
    · rw [hf] at ha
      simp only [scan, hf, ha, hs, and_self]
    · rw [hf] at ha
      rcases hb : probe r c with _ | b
      · obtain ⟨iha, ihs⟩ := scan_scan probe hp routes
        simp only [scan, hf, hb, ha, hs, hp, iha, ihs, and_self]
      · simp only [scan, hf, hb, ha, hs, hp, and_self]

end Route

namespace Table

theorem answer_compileAll_compileAll (t : Table α) :
    t.compileAll.state.compileAll.answer = t.compileAll.answer := by
  have hr := (Route.scan_scan (fun _ _ => (none : Option Unit)) (fun _ _ => rfl) t.routes.toList).1
  simp only [compileAll, scan, Outcome.map, Outcome.mapState]
  rw [hr]

theorem state_compileAll_compileAll (t : Table α) :
    t.compileAll.state.compileAll.state = t.compileAll.state := by
  have hr := (Route.scan_scan (fun _ _ => (none : Option Unit)) (fun _ _ => rfl) t.routes.toList).2
  simp only [compileAll, scan, Outcome.map, Outcome.mapState]
  rw [hr]

end Table

end PathRouting
