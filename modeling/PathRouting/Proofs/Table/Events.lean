import Mathlib.Data.List.Nodup
import PathRouting.Proofs.Table.FirstMatch
import PathRouting.Proofs.Table.Index

/-!
# Each route compiles at most once

A scan forces the routes up to the one that ends it and leaves those behind as they are
(`Route.scan_eq`), and a route that keeps what its pattern compiles to reports nothing when it is
forced. What a table keeps can be told from the steps (`settle`, `keeps_settle`): an insertion keeps
it, a copy has it too, and a scan that ends in an error has kept what it compiled before. So a scan
reports just the other patterns that it comes to (`filterMap_attempted?_events`). A failure is not
kept, so each scan that comes to it reports it again.
-/

namespace PathRouting

variable {α β γ : Type}

namespace Event

/-- The pattern whose compilation is reported. -/
def attempted? : Event → Option String
  | compiled pattern _ _ => some pattern
  | malformed error => some error.pattern
  | refused pattern _ => some pattern
  | matched .. => none
  | unmatched _ => none

def isFailure : Event → Bool
  | malformed _ => true
  | refused .. => true
  | _ => false

end Event

theorem attempted?_attempt (source : String) : (attempt source).2.attempted? = some source := by
  rw [attempt]
  split
  · rfl
  · dsimp only
    split <;> rfl

theorem eq_attempt_of_attempted? {e : Event} {source p : String} (he : e = (attempt source).2)
    (hp : e.attempted? = some p) : e = (attempt p).2 := by
  rw [he, attempted?_attempt, Option.some.injEq] at hp
  rw [he, hp]

theorem isFailure_attempt (source : String) :
    (attempt source).2.isFailure = !compiles source := by
  rw [compiles, compile, attempt]
  split
  · rfl
  · dsimp only
    split <;> rfl

namespace Route

theorem events_force (r : Route α) :
    r.force.events = if r.compiled.isNone then [(attempt r.pattern).2] else [] := by
  rw [force]
  split
  · next c hc => simp [hc, Outcome.quiet]
  · next hc => split <;> next ha => simp [hc, ha]

theorem pattern_force (r : Route α) : r.force.state.pattern = r.pattern :=
  congrArg Prod.fst r.entry_force

theorem isSome_compiled_force (r : Route α) :
    r.force.state.compiled.isSome = (r.compiled.isSome || compiles r.pattern) := by
  rw [force]
  split
  · next c hc => simp [hc, Outcome.quiet]
  · next hc =>
    split <;> next ha =>
      rw [compiles, compile, ha, hc]
      rfl

/-- A scan forces the routes up to the first whose pattern does not compile or is what it looks
for. -/
theorem scan_eq {probe : String → α → Compiled → Option β} {found : String → Bool}
    (hf : ∀ pattern value c, compile pattern = .ok c →
      (probe pattern value c).isSome = found pattern) :
    ∀ {routes : List (Route α)}, (∀ r ∈ routes, r.Sound) →
      let n := (routes.map pattern).findIdx (fun p => !compiles p || found p) + 1
      (scan (fun r c => probe r.pattern r.value c) routes).state =
          (routes.take n).map (·.force.state) ++ routes.drop n ∧
        (scan (fun r c => probe r.pattern r.value c) routes).events =
          (routes.take n).flatMap (·.force.events)
  | [], _ => ⟨rfl, rfl⟩
  | r :: routes, h => by
    obtain ⟨hr, ht⟩ := List.forall_mem_cons.1 h
    obtain ⟨ihs, ihe⟩ := scan_eq hf ht
    have ha := answer_force hr
    rcases hc : compile r.pattern with e | c
    · rw [hc] at ha
      simp [scan, ha, List.findIdx_cons, compiles_of_error hc]
    · rw [hc] at ha
      have hp := hf r.pattern r.value c hc
      rcases hb : probe r.pattern r.value c with _ | b
      · rw [hb] at hp
        simp only [scan, ha, hb, ihs, ihe]
        simp [List.findIdx_cons, compiles_of_ok hc, ← hp]
      · rw [hb] at hp
        simp [scan, ha, hb, List.findIdx_cons, compiles_of_ok hc, ← hp]

/-- What forcing routes reports, of those that keep nothing. -/
theorem filterMap_attempted? (routes : List (Route α)) :
    (routes.flatMap (·.force.events)).filterMap Event.attempted? =
      (routes.filter (·.compiled.isNone)).map pattern := by
  induction routes with
  | nil => rfl
  | cons r routes ih =>
    rw [List.flatMap_cons, List.filterMap_append, ih, events_force, List.filter_cons]
    split
    · rw [List.filterMap_cons_some (attempted?_attempt r.pattern)]
      rfl
    · rfl

/-- The patterns of which something is kept. -/
def kept (routes : List (Route α)) : List String :=
  (routes.filter (·.compiled.isSome)).map pattern

theorem mem_kept {routes : List (Route α)} {p : String} :
    p ∈ kept routes ↔ ∃ r ∈ routes, r.compiled.isSome = true ∧ r.pattern = p := by
  simp [kept, and_assoc]

theorem kept_append (routes others : List (Route α)) :
    kept (routes ++ others) = kept routes ++ kept others := by
  simp [kept]

/-- A route that replaces another of its pattern and keeps what that kept. -/
theorem mem_kept_set {routes : List (Route α)} {i : Nat} (h : i < routes.length) {r : Route α}
    {compiled : Option Compiled} {p : String} (hp : routes[i].pattern = r.pattern)
    (hc : r.compiled = compiled.or routes[i].compiled) :
    p ∈ kept (routes.set i r) ↔ p ∈ kept routes ∨ compiled.isSome = true ∧ r.pattern = p := by
  obtain ⟨before, behind, hr, -, hs⟩ := @List.exists_of_set _ i r routes h
  have hk : ∀ s : Route α, p ∈ kept (before ++ s :: behind) ↔
      p ∈ kept before ∨ s.compiled.isSome = true ∧ s.pattern = p ∨ p ∈ kept behind := fun s => by
    simp only [mem_kept, List.mem_append, List.mem_cons, or_and_right, exists_or, exists_eq_left]
  have hold := hk routes[i]
  rw [← hr, hp] at hold
  rw [hs, hk, hold, hc, Option.isSome_or, Bool.or_eq_true]
  tauto

/-- Forcing adds the patterns that compile. -/
theorem mem_kept_force {routes : List (Route α)} {p : String} :
    p ∈ kept (routes.map (·.force.state)) ↔
      p ∈ kept routes ∨ p ∈ routes.map pattern ∧ compiles p = true := by
  simp only [mem_kept, List.mem_map]
  constructor
  · rintro ⟨_, ⟨r, hr, rfl⟩, hs, rfl⟩
    rw [isSome_compiled_force, Bool.or_eq_true] at hs
    rw [pattern_force]
    exact hs.imp (fun hs => ⟨r, hr, hs, rfl⟩) fun hc => ⟨⟨r, hr, rfl⟩, hc⟩
  · rintro (⟨r, hr, hs, rfl⟩ | ⟨⟨r, hr, rfl⟩, hc⟩)
    · exact ⟨_, ⟨r, hr, rfl⟩, by rw [isSome_compiled_force, hs, Bool.true_or], r.pattern_force⟩
    · exact ⟨_, ⟨r, hr, rfl⟩, by rw [isSome_compiled_force, hc, Bool.or_true], r.pattern_force⟩

end Route

namespace Table

/-! ## What a scan reaches -/

/-- Where a scan of the table ends, if the step is one: at a pattern that does not compile, or that
matches what is looked up. -/
def Step.endsAt? : Step α γ → Option (String → Bool)
  | .find url | .dispatch url _ => some fun p => !compiles p || accepts url p
  | .compileAll => some fun p => !compiles p
  | _ => none

/-- The patterns that a step comes to. -/
def Step.reached (patterns : List String) (st : Step α γ) : List String :=
  match st.endsAt? with
  | some ends => patterns.take (patterns.findIdx ends + 1)
  | none => []

/-- A step forces the first routes of the table, reports of no other compilation, and leaves the
saved copy as it is. -/
structure Forces (o : Outcome (Session (Table α)) (Reply α β)) (s : Session (Table α)) (n : Nat) :
    Prop where
  routes_eq : o.state.current.routes.toList =
    (s.current.routes.toList.take n).map (·.force.state) ++ s.current.routes.toList.drop n
  saved_eq : o.state.saved = s.saved
  events_eq : ∃ closing, (∀ e ∈ closing, e.attempted? = none) ∧
    o.events = (s.current.routes.toList.take n).flatMap (·.force.events) ++ closing

theorem attempted?_closing (url : String) (answer : Except CompileError (Option (Match α))) :
    ∀ e ∈ closing url answer, e.attempted? = none := by
  rcases answer with e | _ | m
  · nofun
  · exact fun e he => List.mem_singleton.1 he ▸ rfl
  · exact fun e he => List.mem_singleton.1 he ▸ rfl

theorem forces_step (call : α → γ → Params → β) {s : Session (Table α)} (h : s.current.Valid)
    {st : Step α γ} {ends : String → Bool} (hst : st.endsAt? = some ends) :
    Forces (step call s st) s (s.current.patterns.findIdx ends + 1) := by
  have hfind : ∀ url : String, ∀ pattern (value : α) c, compile pattern = .ok c →
      ((c.extract url.toList).map fun found =>
        ({ value, url, pattern, params := found.1, query := found.2 } : Match α)).isSome =
          accepts url pattern := fun url pattern value c hc => by
    rw [Option.isSome_map, accepts_of_ok hc]
  cases st with
  | find url =>
    cases hst
    obtain ⟨hs, he⟩ := Route.scan_eq (hfind url) h.sound
    exact ⟨hs, rfl, _, attempted?_closing url _, congrArg (· ++ _) he⟩
  | dispatch url context =>
    cases hst
    obtain ⟨hs, he⟩ := Route.scan_eq (hfind url) h.sound
    exact ⟨hs, rfl, _, attempted?_closing url _, congrArg (· ++ _) he⟩
  | compileAll =>
    cases hst
    have hnone : ∀ pattern (value : α) c, compile pattern = .ok c →
        (none : Option Unit).isSome = false := fun _ _ _ _ => rfl
    obtain ⟨hs, he⟩ := Route.scan_eq hnone h.sound
    simp only [Bool.or_false] at hs he
    exact ⟨hs, rfl, [], nofun, by rw [List.append_nil]; exact he⟩
  | _ => cases hst

/-! ## What a table keeps -/

/-- The patterns of which the table keeps what they compile to. -/
def kept (t : Table α) : List String :=
  Route.kept t.routes.toList

section Kept

variable {t : Table α} {p : String}

theorem Valid.pattern_mem_kept_iff (h : t.Valid) {r : Route α} (hr : r ∈ t.routes.toList) :
    r.pattern ∈ t.kept ↔ r.compiled.isSome = true := by
  rw [kept, Route.mem_kept]
  refine ⟨fun ⟨s, hs, hc, hp⟩ => ?_, fun hc => ⟨r, hr, hc, rfl⟩⟩
  rwa [List.inj_on_of_nodup_map h.nodup_patterns hs hr hp] at hc

theorem Valid.compiles_of_mem_kept (h : t.Valid) (hp : p ∈ t.kept) : compiles p = true := by
  obtain ⟨r, hr, hs, rfl⟩ := Route.mem_kept.1 hp
  obtain ⟨c, hc⟩ := Option.isSome_iff_exists.1 hs
  exact compiles_of_ok (h.sound r hr c hc)

/-- Putting a value keeps what is kept, also where it replaces another. -/
theorem Valid.mem_kept_put (h : t.Valid) (pattern : String) (value : α)
    (compiled : Option Compiled) : p ∈ (t.put pattern value compiled).kept ↔
      p ∈ t.kept ∨ compiled.isSome = true ∧ pattern = p := by
  rcases hi : t.index[pattern]? with _ | i
  · simp [put, hi, kept, Route.mem_kept]
  · obtain ⟨hs, hp, hr⟩ := h.routes_put hi value compiled
    rw [kept, hr, Array.toList_set]
    exact Route.mem_kept_set (by simpa using hs) hp rfl

theorem Valid.mem_kept_insert (h : t.Valid) (pattern : String) (value : α) :
    p ∈ (t.insert pattern value).kept ↔ p ∈ t.kept := by
  rw [insert, h.mem_kept_put]
  simp

theorem Valid.mem_kept_tryInsert (h : t.Valid) (pattern : String) (value : α) :
    p ∈ (t.tryInsert pattern value).state.kept ↔
      p ∈ t.kept ∨ p ∈ [pattern].filter compiles := by
  rw [tryInsert]
  split
  · next c event ha =>
    have hc : compile pattern = .ok c := by rw [← attempt_fst, ha]
    simp [h.mem_kept_put, compiles_of_ok hc, eq_comm]
  · next e event ha =>
    have hc : compile pattern = .error e := by rw [← attempt_fst, ha]
    simp [compiles_of_error hc]

theorem Valid.mem_kept_extend : ∀ (routes : List (String × α)) {t : Table α}, t.Valid →
    (p ∈ (t.extend routes).kept ↔ p ∈ t.kept)
  | [], _, _ => .rfl
  | r :: routes, _, h =>
    (mem_kept_extend routes (valid_insert h r.1 r.2)).trans (h.mem_kept_insert r.1 r.2)

end Kept

/-- The patterns that a table and its saved copy keep, after one more step. A pattern that does not
compile is never kept. -/
def settle (t : Table α) (done : Session (List String)) : Step α γ → Session (List String)
  | .insert .. => done
  | .tryInsert pattern _ => done.set (done.current ++ [pattern].filter compiles)
  | .extend _ => done
  | .clear => done.set []
  | .save => done.save
  | .swap => done.swap
  | st => done.set (done.current ++ (st.reached t.patterns).filter compiles)

/-- The patterns that were compiled since a table was last empty, from those at the start. -/
def settled (call : α → γ → Params → β) (s : Session (Table α)) (done : Session (List String)) :
    List (Step α γ) → Session (List String)
  | [] => done
  | first :: steps => settled call (step call s first).state (settle s.current done first) steps

/-- A table and its saved copy keep what those patterns compile to, and nothing else. -/
structure Keeps (s : Session (Table α)) (done : Session (List String)) : Prop where
  current : ∀ p, p ∈ s.current.kept ↔ p ∈ done.current
  saved : ∀ p, p ∈ s.saved.kept ↔ p ∈ done.saved

theorem Forces.mem_kept {o : Outcome (Session (Table α)) (Reply α β)} {s : Session (Table α)}
    {n : Nat} (h : Forces o s n) (p : String) : p ∈ o.state.current.kept ↔
      p ∈ s.current.kept ∨ p ∈ (s.current.patterns.take n).filter compiles := by
  rw [kept, h.routes_eq, Route.kept_append, List.mem_append, Route.mem_kept_force, or_right_comm,
    ← List.mem_append, ← Route.kept_append, List.take_append_drop, List.mem_filter, patterns,
    List.map_take, kept]

theorem keeps_settle (call : α → γ → Params → β) {s : Session (Table α)} (h : BothValid s)
    {done : Session (List String)} (hk : Keeps s done) (st : Step α γ) :
    Keeps (step call s st).state (settle s.current done st) := by
  have hscan : ∀ {ends : String → Bool}, st.endsAt? = some ends →
      settle s.current done st =
        done.set (done.current ++ (st.reached s.current.patterns).filter compiles) →
      Keeps (step call s st).state (settle s.current done st) := fun hst hd => by
    have hf := forces_step call h.current hst
    rw [hd]
    refine ⟨fun p => ?_, fun p => ?_⟩
    · simp only [hf.mem_kept, hk.current, Session.set, List.mem_append, Step.reached, hst]
    · rw [hf.saved_eq]
      exact hk.saved p
  cases st with
  | insert pattern value =>
    exact ⟨fun p => (h.current.mem_kept_insert pattern value).trans (hk.current p), hk.saved⟩
  | tryInsert pattern value =>
    refine ⟨fun p => (h.current.mem_kept_tryInsert pattern value).trans ?_, hk.saved⟩
    rw [hk.current]
    exact List.mem_append.symm
  | extend routes =>
    exact ⟨fun p => (h.current.mem_kept_extend routes).trans (hk.current p), hk.saved⟩
  | clear => exact ⟨fun p => .rfl, hk.saved⟩
  | save => exact ⟨hk.current, hk.current⟩
  | swap => exact ⟨hk.saved, hk.current⟩
  | compileAll => exact hscan rfl rfl
  | find url => exact hscan rfl rfl
  | dispatch url context => exact hscan rfl rfl

theorem keeps_settled (call : α → γ → Params → β) : ∀ (steps : List (Step α γ))
    {s : Session (Table α)} {done : Session (List String)}, BothValid s → Keeps s done →
      Keeps (run call s steps).2 (settled call s done steps)
  | [], _, _, _, hk => hk
  | first :: steps, _, _, h, hk =>
    keeps_settled call steps (step_eq call h first).2.2 (keeps_settle call h hk first)

theorem keeps_start (routes : List (String × α)) :
    Keeps (.start (ofList routes)) (.start []) := by
  have hk : ∀ p, p ∈ (ofList routes).kept ↔ p ∈ ([] : List String) :=
    fun p => Valid.mem_kept_extend routes valid_empty
  exact ⟨hk, hk⟩

/-! ## What is reported -/

/-- A step reports of a pattern what compiling it reports. -/
theorem eq_attempt_of_mem_events (call : α → γ → Params → β) {s : Session (Table α)}
    (h : s.current.Valid) {st : Step α γ} {e : Event} (he : e ∈ (step call s st).events)
    {p : String} (hp : e.attempted? = some p) : e = (attempt p).2 := by
  rcases hst : st.endsAt? with _ | ends
  · cases st with
    | tryInsert pattern value =>
      have hev : (s.current.tryInsert pattern value).events = [(attempt pattern).2] := by
        rw [tryInsert]
        split <;> next ha => rw [ha]
      exact eq_attempt_of_attempted? (List.mem_singleton.1 (hev ▸ he)) hp
    | insert | extend | clear | save | swap => cases he
    | compileAll | find | dispatch => cases hst
  · obtain ⟨closing, hc, hev⟩ := (forces_step call h hst).events_eq
    rw [hev, List.mem_append, List.mem_flatMap] at he
    rcases he with ⟨r, -, he⟩ | he
    · rw [Route.events_force] at he
      split at he
      · exact eq_attempt_of_attempted? (List.mem_singleton.1 he) hp
      · cases he
    · rw [hc e he] at hp
      cases hp

/-- A scan reports the patterns that it comes to and that are not kept, in their order. -/
theorem filterMap_attempted?_events (call : α → γ → Params → β) {s : Session (Table α)}
    (h : s.current.Valid) {st : Step α γ} (hst : st.endsAt?.isSome = true) :
    (step call s st).events.filterMap Event.attempted? =
      (st.reached s.current.patterns).filter fun p => p ∉ s.current.kept := by
  obtain ⟨ends, hst⟩ := Option.isSome_iff_exists.1 hst
  obtain ⟨closing, hc, hev⟩ := (forces_step call h hst).events_eq
  rw [hev, List.filterMap_append, List.filterMap_eq_nil_iff.2 hc, List.append_nil,
    Route.filterMap_attempted?, Step.reached, hst]
  dsimp only
  rw [patterns, ← List.map_take, List.filter_map]
  congr 1
  refine List.filter_congr fun r hr => ?_
  have hm := h.pattern_mem_kept_iff (List.mem_of_mem_take hr)
  simp only [Function.comp_apply, hm]
  cases r.compiled <;> rfl

theorem Valid.nodup_reached {t : Table α} (h : t.Valid) (st : Step α γ) :
    (st.reached t.patterns).Nodup := by
  rw [Step.reached]
  split
  · exact h.nodup_patterns.sublist (List.take_sublist _ _)
  · exact List.nodup_nil

/-- After any run, a scan reports nothing of a pattern that was compiled since its table was last
empty, in that table or in the one that it was copied from. A pattern that does not compile is
reported as a failure, once by each scan that comes to it, and never as a success. -/
theorem compiles_at_most_once (call : α → γ → Params → β) (routes : List (String × α))
    (steps : List (Step α γ)) :
    let s := (run call (.start (ofList routes)) steps).2
    let done := settled call (.start (ofList routes)) (.start []) steps
    (∀ st : Step α γ,
      let events := (step call s st).events
      (st.endsAt?.isSome = true →
        (∀ p ∈ done.current, ∀ e ∈ events, e.attempted? ≠ some p) ∧
        events.filterMap Event.attempted? =
          (st.reached s.current.patterns).filter fun p => p ∉ done.current) ∧
      (∀ p ∈ st.reached s.current.patterns, compiles p = false →
        (events.filterMap Event.attempted?).count p = 1 ∧
        ∀ e ∈ events, e.attempted? = some p → e.isFailure = true) ∧
      ∀ p rule params, compiles p = false → .compiled p rule params ∉ events) ∧
    (∀ pattern value, (step call s (.insert pattern value)).events = []) ∧
    (∀ more, (step call s (.extend more)).events = []) ∧
    (step call s .clear).events = [] ∧ (step call s .save).events = [] ∧
    (step call s .swap).events = [] := by
  intro s done
  have hs : BothValid s := (run_eq call steps (bothValid_start routes)).2.2
  have hk : Keeps s done := keeps_settled call steps (bothValid_start routes) (keeps_start routes)
  refine ⟨fun st => ?_, fun _ _ => rfl, fun _ => rfl, rfl, rfl, rfl⟩
  intro events
  have hev : st.endsAt?.isSome = true → events.filterMap Event.attempted? =
      (st.reached s.current.patterns).filter fun p => p ∉ done.current := fun hst => by
    rw [filterMap_attempted?_events call hs.current hst]
    simp only [hk.current]
  have hfail : ∀ p, compiles p = false → ∀ e ∈ events, e.attempted? = some p →
      e.isFailure = true := fun p hc e he hp => by
    rw [eq_attempt_of_mem_events call hs.current he hp, isFailure_attempt, hc]
    rfl
  refine ⟨fun hst => ⟨fun p hp e he ha => ?_, hev hst⟩, fun p hp hc => ⟨?_, hfail p hc⟩,
    fun p rule params hc he => ?_⟩
  · have hm : p ∈ events.filterMap Event.attempted? := List.mem_filterMap.2 ⟨e, he, ha⟩
    rw [hev hst, List.mem_filter, decide_eq_true_eq] at hm
    exact hm.2 hp
  · have hst : st.endsAt?.isSome = true := by
      rw [Step.reached] at hp
      split at hp
      · next h => rw [h]; rfl
      · cases hp
    -- What does not compile is not kept, so it is among what is reported.
    have hn : p ∉ done.current := fun hd => by
      rw [hs.current.compiles_of_mem_kept ((hk.current p).2 hd)] at hc
      cases hc
    rw [hev hst, List.count_filter (by simpa using hn)]
    exact List.count_eq_one_of_mem (hs.current.nodup_reached st) hp
  · cases hfail p hc _ he rfl

theorem compiles_at_most_once_saved :
    let s := (run (fun value (_ : Unit) _ => value) (.start (ofList [("/:x", 1), ("/b(", 2)]))
      [.find "/a/b", .save, .insert "/:x" 3, .swap]).2
    let events := (step (fun value (_ : Unit) _ => value) s .compileAll).events
    (∀ e ∈ events, e.attempted? ≠ some "/:x") ∧
      (events.filterMap Event.attempted?).count "/b(" = 1 ∧
      ∀ e ∈ events, e.attempted? = some "/b(" → e.isFailure = true := by
  intro s events
  obtain ⟨hs, -⟩ := compiles_at_most_once (fun value (_ : Unit) _ => value)
    [("/:x", 1), ("/b(", 2)] [.find "/a/b", .save, .insert "/:x" 3, .swap]
  obtain ⟨hd, hf, -⟩ := hs .compileAll
  exact ⟨(hd rfl).1 "/:x" (by decide +kernel), hf "/b(" (by decide +kernel) (by decide +kernel)⟩

end Table

end PathRouting
