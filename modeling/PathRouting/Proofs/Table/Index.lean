import PathRouting.Proofs.Table.Valid

/-!
# The index is the inverse of the routes

No two routes of a table that is reached have one pattern, and the index leads from each pattern to
the position of its route and from nothing else to anywhere. So a position that is read from the
index is one of a route, and replacing there replaces the route of the pattern (`routes_put`).
-/

namespace PathRouting.Table

variable {α β γ : Type}

theorem getElem?_patterns_eq_some_iff {t : Table α} {pattern : String} {i : Nat} :
    t.patterns[i]? = some pattern ↔ ∃ h : i < t.routes.size, t.routes[i].pattern = pattern := by
  rw [patterns, List.getElem?_map, Array.getElem?_toList, Option.map_eq_some_iff]
  constructor
  · rintro ⟨r, hr, hp⟩
    obtain ⟨h, rfl⟩ := Array.getElem?_eq_some_iff.1 hr
    exact ⟨h, hp⟩
  · rintro ⟨h, hp⟩
    exact ⟨_, Array.getElem?_eq_getElem h, hp⟩

namespace Valid

variable {t : Table α}

theorem index_inverse (h : t.Valid) (pattern : String) (i : Nat) :
    t.index[pattern]? = some i ↔ ∃ h : i < t.routes.size, t.routes[i].pattern = pattern :=
  (h.index_iff pattern i).trans getElem?_patterns_eq_some_iff

/-- A pattern at two positions would have two entries in the index. -/
theorem nodup_patterns (h : t.Valid) : t.patterns.Nodup := by
  rw [List.Nodup, List.pairwise_iff_getElem]
  intro i j hi hj hij he
  have hxi := (h.index_iff t.patterns[i] i).2 (List.getElem?_eq_getElem hi)
  have hxj := (h.index_iff t.patterns[j] j).2 (List.getElem?_eq_getElem hj)
  rw [he, hxj, Option.some.injEq] at hxi
  omega

theorem mem_patterns_iff (h : t.Valid) (pattern : String) :
    pattern ∈ t.patterns ↔ pattern ∈ t.index := by
  rw [← Std.TreeMap.isSome_getElem?_iff_mem, Option.isSome_iff_exists, List.mem_iff_getElem?]
  exact exists_congr fun i => (h.index_iff pattern i).symm

theorem size_index (h : t.Valid) : t.index.size = t.size := by
  have hp : t.index.keys.Perm t.patterns :=
    (List.perm_ext_iff_of_nodup Std.TreeMap.nodup_keys h.nodup_patterns).2 fun pattern => by
      rw [Std.TreeMap.mem_keys, h.mem_patterns_iff]
  rw [← Std.TreeMap.length_keys, hp.length_eq, patterns, List.length_map, Array.length_toList, size]

/-- Where the index knows a pattern, the route that is replaced is that of the pattern. -/
theorem routes_put (h : t.Valid) {pattern : String} {i : Nat} (hi : t.index[pattern]? = some i)
    (value : α) (compiled : Option Compiled) :
    ∃ hs : i < t.routes.size, t.routes[i].pattern = pattern ∧
      (t.put pattern value compiled).routes =
        t.routes.set i { pattern, value, compiled := compiled.or t.routes[i].compiled } := by
  obtain ⟨hs, hp⟩ := (h.index_inverse pattern i).1 hi
  refine ⟨hs, hp, ?_⟩
  simp only [put, hi]
  refine Array.ext (by simp) fun j hj _ => ?_
  rw [Array.getElem_modify, Array.getElem_set]
  split
  · next hij =>
    subst hij
    rw [hp]
  · rfl

end Valid

/-- In every table that a run reaches, and in its saved copy, each pattern stands once and the index
is the inverse of the routes, so that what it knows, the patterns and the sizes agree, and a position
that is read from it is that of the route to replace. -/
theorem index_inverts_routes (call : α → γ → Params → β) (routes : List (String × α))
    (steps : List (Step α γ)) :
    let reached := (run call (.start (.ofList routes)) steps).2
    ∀ t ∈ [reached.current, reached.saved],
      t.patterns.Nodup ∧
      (∀ pattern i, t.index[pattern]? = some i ↔
        ∃ h : i < t.routes.size, t.routes[i].pattern = pattern) ∧
      (∀ pattern i, t.index[pattern]? = some i → ∀ value compiled,
        ∃ h : i < t.routes.size, t.routes[i].pattern = pattern ∧
          (t.put pattern value compiled).routes =
            t.routes.set i { pattern, value, compiled := compiled.or t.routes[i].compiled }) ∧
      (∀ pattern, pattern ∈ t.patterns ↔ pattern ∈ t.index) ∧
      t.patterns.length = t.size ∧ t.index.size = t.size ∧
      (t.isEmpty = true ↔ ∀ pattern, pattern ∉ t.index) := by
  intro reached t ht
  have hs : BothValid reached := (run_eq call steps (bothValid_start routes)).2.2
  have hv : t.Valid := by
    rcases ht with _ | ⟨_, _ | ⟨_, ⟨⟩⟩⟩
    · exact hs.current
    · exact hs.saved
  refine ⟨hv.nodup_patterns, hv.index_inverse, fun pattern i hi value compiled => ?_,
    hv.mem_patterns_iff, ?_, hv.size_index, ?_⟩
  · exact hv.routes_put hi value compiled
  · simp [patterns, size]
  · have he : t.isEmpty = true ↔ t.patterns = [] := by simp [isEmpty, patterns]
    rw [he, List.eq_nil_iff_forall_not_mem]
    exact forall_congr' fun pattern => not_congr (hv.mem_patterns_iff pattern)

theorem index_inverts_routes_duplicate :
    let reached := (run (fun value (_ : Unit) _ => value)
      (.start (.ofList [("/a", 1), ("/:x", 2), ("/a", 3)])) [.tryInsert "/b(" 4, .save, .clear]).2
    reached.saved.patterns = ["/a", "/:x"] ∧ reached.saved.patterns.Nodup ∧
      reached.saved.index["/:x"]? = some 1 ∧
      ∃ h : 1 < reached.saved.routes.size, reached.saved.routes[1].pattern = "/:x" := by
  intro reached
  obtain ⟨hn, hi, -⟩ := index_inverts_routes (fun value (_ : Unit) _ => value)
    [("/a", 1), ("/:x", 2), ("/a", 3)] [.tryInsert "/b(" 4, .save, .clear] reached.saved
    (List.mem_cons_of_mem _ List.mem_cons_self)
  have hx : reached.saved.index["/:x"]? = some 1 := by decide +kernel
  exact ⟨by decide +kernel, hn, hx, (hi "/:x" 1).1 hx⟩

end PathRouting.Table
