import Mathlib.Data.List.Basic
import PathRouting.Proofs.Table.Valid

/-!
# What a table keeps of its history

The history of a table is the list of the insertions that succeeded since it was last empty. The
table keeps each pattern of it once, where it was inserted first, with the value that was inserted
last (`Listing.Recalls`). An insertion keeps this (`Recalls.insert`), whether it finds its pattern
or adds it, and the other steps leave the history as it is, exchange it or forget it.

Since only the insertions count, a table that is built from two lists at once, from one after the
other or route by route is the same.
-/

namespace PathRouting

variable {α β γ : Type}

namespace Listing

/-- The patterns of a history in the order of their first insertions, each with its last value. -/
structure Recalls (l : Listing α) (history : List (String × α)) : Prop where
  ordered : (l.map Prod.fst).Pairwise fun p q =>
    (history.map Prod.fst).idxOf p < (history.map Prod.fst).idxOf q
  mem_iff : ∀ p, p ∈ l.map Prod.fst ↔ p ∈ history.map Prod.fst
  last : ∀ e ∈ l, ∃ before behind, history = before ++ e :: behind ∧ e.1 ∉ behind.map Prod.fst

theorem map_fst_insert (pattern : String) (value : α) : ∀ l : Listing α,
    (insert pattern value l).map Prod.fst =
      if pattern ∈ l.map Prod.fst then l.map Prod.fst else l.map Prod.fst ++ [pattern]
  | [] => by simp [insert]
  | e :: l => by
    rw [insert]
    split
    · next he => simp [he]
    · next he =>
      simp only [List.map_cons, map_fst_insert pattern value l, List.mem_cons, Ne.symm he,
        false_or]
      split <;> rfl

theorem eq_or_mem_of_mem_insert {pattern : String} {value : α} {e : String × α} :
    ∀ {l : Listing α}, (l.map Prod.fst).Nodup → e ∈ insert pattern value l →
      e = (pattern, value) ∨ e ∈ l ∧ e.1 ≠ pattern
  | [], _, h => .inl (List.mem_singleton.1 h)
  | d :: l, hn, h => by
    obtain ⟨hd, hn⟩ := List.nodup_cons.1 hn
    rw [insert] at h
    split at h
    · next hp =>
      rcases List.mem_cons.1 h with rfl | h
      · exact .inl rfl
      · refine .inr ⟨List.mem_cons_of_mem d h, fun he => hd ?_⟩
        rw [hp, ← he]
        exact List.mem_map_of_mem h
    · next hp =>
      rcases List.mem_cons.1 h with rfl | h
      · exact .inr ⟨List.mem_cons_self, hp⟩
      · rcases eq_or_mem_of_mem_insert hn h with he | ⟨hm, hne⟩
        · exact .inl he
        · exact .inr ⟨List.mem_cons_of_mem d hm, hne⟩

namespace Recalls

variable {l : Listing α} {history : List (String × α)}

theorem nil : Recalls ([] : Listing α) [] :=
  ⟨.nil, fun _ => .rfl, fun _ h => by cases h⟩

theorem nodup (h : l.Recalls history) : (l.map Prod.fst).Nodup :=
  h.ordered.imp fun hlt he => by simp [he] at hlt

theorem insert (h : l.Recalls history) (pattern : String) (value : α) :
    (Listing.insert pattern value l).Recalls (history ++ [(pattern, value)]) := by
  have hidx : ∀ p ∈ l.map Prod.fst, ((history ++ [(pattern, value)]).map Prod.fst).idxOf p =
      (history.map Prod.fst).idxOf p := fun p hp => by
    rw [List.map_append, List.idxOf_append_of_mem ((h.mem_iff p).1 hp)]
  have hord : (l.map Prod.fst).Pairwise fun p q =>
      ((history ++ [(pattern, value)]).map Prod.fst).idxOf p <
        ((history ++ [(pattern, value)]).map Prod.fst).idxOf q :=
    h.ordered.imp_of_mem fun hp hq hlt => by rwa [hidx _ hp, hidx _ hq]
  -- A known pattern keeps its place, and a new one has its first insertion behind all others.
  refine ⟨?_, fun p => ?_, fun e he => ?_⟩
  · rw [map_fst_insert]
    split
    · exact hord
    · next hn =>
      refine List.pairwise_append.2 ⟨hord, List.pairwise_singleton _ _, fun p hp q hq => ?_⟩
      have hnew : pattern ∉ history.map Prod.fst := fun hm => hn ((h.mem_iff pattern).2 hm)
      rw [List.mem_singleton.1 hq, hidx p hp, List.map_append,
        List.idxOf_append_of_notMem hnew]
      exact Nat.lt_add_right _ (List.idxOf_lt_length_of_mem ((h.mem_iff p).1 hp))
  · rw [map_fst_insert, List.map_append, List.mem_append, ← h.mem_iff]
    split
    · next hm =>
      refine ⟨.inl, fun hp => hp.elim id fun hp => ?_⟩
      rwa [List.mem_singleton.1 hp]
    · rw [List.mem_append]
      rfl
  · rcases eq_or_mem_of_mem_insert h.nodup he with rfl | ⟨hm, hne⟩
    · exact ⟨history, [], rfl, by simp⟩
    · obtain ⟨before, behind, hh, hb⟩ := h.last e hm
      refine ⟨before, behind ++ [(pattern, value)], by simp [hh], ?_⟩
      simpa [hne] using hb

theorem extend : ∀ (routes : List (String × α)) {l : Listing α} {history : List (String × α)},
    l.Recalls history → (Listing.extend routes l).Recalls (history ++ routes)
  | [], _, _, h => by simpa [Listing.extend] using h
  | r :: routes, l, history, h => by
    have ih := extend routes (h.insert r.1 r.2)
    rwa [List.append_assoc] at ih

end Recalls

theorem extend_append (routes more : List (String × α)) (l : Listing α) :
    extend (routes ++ more) l = extend more (extend routes l) := by
  rw [extend, List.foldl_append]
  rfl

end Listing

namespace Table

/-- The history of a table and that of its saved copy, after one more step. -/
def record (s : Session (List (String × α))) : Step α γ → Session (List (String × α))
  | .insert pattern value => s.set (s.current ++ [(pattern, value)])
  | .tryInsert pattern value =>
    match compile pattern with
    | .ok _ => s.set (s.current ++ [(pattern, value)])
    | .error _ => s
  | .extend routes => s.set (s.current ++ routes)
  | .clear => s.set []
  | .save => s.save
  | .swap => s.swap
  | .compileAll => s
  | .find _ => s
  | .dispatch .. => s

/-- The insertions that succeeded since the table was last empty, where it started with routes. -/
def history (routes : List (String × α)) (steps : List (Step α γ)) : List (String × α) :=
  (steps.foldl record (.start routes)).current

/-- The listings of two histories. -/
def replayed (s : Session (List (String × α))) : Session (Listing α) :=
  ⟨Listing.extend s.current [], Listing.extend s.saved []⟩

theorem step_replayed (call : α → γ → Params → β) (s : Session (List (String × α)))
    (st : Step α γ) : (Listing.step call (replayed s) st).2 = replayed (record s st) := by
  cases st with
  | insert pattern value =>
    simp only [Listing.step, replayed, record, Session.set, Listing.extend_append]
    rfl
  | tryInsert pattern value =>
    simp only [Listing.step, Listing.tryInsert, record]
    rcases compile pattern with error | c
    · rfl
    · simp only [replayed, Session.set, Listing.extend_append]
      rfl
  | extend routes => simp only [Listing.step, replayed, record, Session.set, Listing.extend_append]
  | clear => rfl
  | save => rfl
  | swap => rfl
  | compileAll => rfl
  | find url => rfl
  | dispatch url context => rfl

theorem run_replayed (call : α → γ → Params → β) : ∀ (steps : List (Step α γ))
    (s : Session (List (String × α))),
      (Listing.run call (replayed s) steps).2 = replayed (steps.foldl record s)
  | [], _ => rfl
  | first :: steps, s => by
    rw [Listing.run, step_replayed, List.foldl_cons]
    exact run_replayed call steps (record s first)

theorem listing_run (call : α → γ → Params → β) (routes : List (String × α))
    (steps : List (Step α γ)) :
    (run call (.start (.ofList routes)) steps).2.current.listing =
      Listing.extend (history routes steps) [] := by
  have hr := (run_eq call steps (bothValid_start routes)).2.1
  rw [listings_start] at hr
  exact congrArg Session.current (hr.trans (run_replayed call steps (.start routes)))

theorem run_insert (call : α → γ → Params → β) : ∀ (routes : List (String × α))
    (s : Session (Table α)),
      (run call s (routes.map fun r => .insert r.1 r.2)).2 = s.set (s.current.extend routes)
  | [], _ => rfl
  | r :: routes, s => by
    rw [List.map_cons, run]
    exact run_insert call routes (s.set (s.current.insert r.1 r.2))

theorem ofList_append (routes more : List (String × α)) :
    ofList (routes ++ more) = (ofList routes).extend more := by
  rw [ofList, extend, List.foldl_append]
  rfl

/-- A table that a run leads to holds the patterns of its history in the order of their first
insertions, each with its last value, and looks urls up by them. -/
theorem holds_history (call : α → γ → Params → β) (routes : List (String × α))
    (steps : List (Step α γ)) :
    let t := (run call (.start (.ofList routes)) steps).2.current
    let inserted := (history routes steps).map Prod.fst
    t.patterns.Nodup ∧
    t.patterns.Pairwise (fun p q => inserted.idxOf p < inserted.idxOf q) ∧
    (∀ p, p ∈ t.patterns ↔ p ∈ inserted) ∧
    (∀ r ∈ t.routes.toList, ∃ before behind,
      history routes steps = before ++ (r.pattern, r.value) :: behind ∧
      r.pattern ∉ behind.map Prod.fst) ∧
    (∀ url, (t.find url).answer = Listing.find url t.listing ∧
      ∀ context, (t.dispatch call url context).answer =
        Listing.dispatch call url context t.listing) ∧
    ∀ more : List (String × α),
      (ofList routes).extend more = ofList (routes ++ more) ∧
      (run call (.start (ofList routes)) [.extend more]).2.current = ofList (routes ++ more) ∧
      (run call (.start empty) ((routes ++ more).map fun r => .insert r.1 r.2)).2.current =
        ofList (routes ++ more) := by
  intro t inserted
  have hv : t.Valid := (run_eq call steps (bothValid_start routes)).2.2.current
  have hr : t.listing.Recalls (history routes steps) := by
    have he := Listing.Recalls.nil.extend (history routes steps)
    rwa [List.nil_append, ← listing_run call] at he
  refine ⟨?_, ?_, fun p => ?_, fun r hm => ?_, fun url => ⟨?_, fun context => ?_⟩, fun more => ?_⟩
  · rw [← map_fst_listing]
    exact hr.nodup
  · rw [← map_fst_listing]
    exact hr.ordered
  · rw [← map_fst_listing]
    exact hr.mem_iff p
  · exact hr.last _ (List.mem_map_of_mem hm)
  · exact (refines_find hv url).answer_eq
  · exact (refines_dispatch call hv url context).answer_eq
  · refine ⟨(ofList_append routes more).symm, (ofList_append routes more).symm, ?_⟩
    rw [run_insert]
    rfl

theorem holds_history_reinserted :
    let steps : List (Step Nat Unit) := [.clear, .insert "/:x" 1, .tryInsert "/b(" 2,
      .tryInsert "/a" 3, .find "/a", .insert "/:x" 4]
    let t := (run (fun value _ _ => value) (.start (ofList [("/old", 0)])) steps).2.current
    t.patterns = ["/:x", "/a"] ∧ ∃ r ∈ t.routes.toList, r.pattern = "/:x" ∧
      ∃ before behind, [("/:x", 1), ("/a", 3), ("/:x", 4)] =
        before ++ (r.pattern, r.value) :: behind ∧ r.pattern ∉ behind.map Prod.fst := by
  intro steps t
  have hh : history [("/old", 0)] steps = [("/:x", 1), ("/a", 3), ("/:x", 4)] := by
    decide +kernel
  have hp : t.patterns = ["/:x", "/a"] := by decide +kernel
  have hm : "/:x" ∈ t.patterns := hp ▸ List.mem_cons_self
  obtain ⟨r, hr, hx⟩ := List.mem_map.1 hm
  have hl := (holds_history (fun value _ _ => value) [("/old", 0)] steps).2.2.2.1 r hr
  rw [hh] at hl
  exact ⟨hp, r, hr, hx, hl⟩

end Table

end PathRouting
