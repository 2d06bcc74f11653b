import PathRouting.Proofs.MethodTable.Slot
import PathRouting.Proofs.Table.Compiling

/-!
# Methods are isolated from each other

A step for one method leaves the tables of the others as they are, and what it does to its own
depends on that table alone (`step_eq`). So what a run shows of a method is what its table by itself
shows of the steps that concern it, whatever is done to other methods in between (`run_eq`).

Compiling all tables is the step that reaches across. It goes through the tables twice, first up to
the first that fails and then through each, but compiling a table again changes nothing, so each
table is left as compiling it once leaves it (`compileEach_methods`).
-/

namespace PathRouting

variable {α β γ δ : Type}

namespace Slot

/-- The table with its patterns compiled, up to the first that fails. -/
def compiled (t : Slot α) : Slot α :=
  t.map fun t => t.compileAll.state

/-- What compiling the table answers. -/
def compileAnswer (t : Slot α) : Option (Except CompileError Unit) :=
  t.map fun t => t.compileAll.answer

theorem compiled_compiled (t : Slot α) : compiled (compiled t) = compiled t := by
  rcases t with _ | t
  · rfl
  · exact congrArg some t.state_compileAll_compileAll

theorem compileAnswer_compiled (t : Slot α) :
    compileAnswer (compiled t) = compileAnswer t := by
  rcases t with _ | t
  · rfl
  · exact congrArg some t.answer_compileAll_compileAll

theorem step_compileAll (call : α → γ → Params → β) (s : Session (Slot α)) :
    (step call s .compileAll).answer = .compiled (compileAnswer s.current) ∧
      (step call s .compileAll).state = s.set (compiled s.current) := by
  obtain ⟨_ | t, saved⟩ := s
  · exact ⟨rfl, rfl⟩
  · exact ⟨rfl, rfl⟩

end Slot

namespace MethodTable

theorem lookup_cons_eq_ite (first other : Method) (a : δ) (l : List (Method × δ)) :
    List.lookup other ((first, a) :: l) = if other = first then some a else l.lookup other := by
  rw [List.lookup_cons]
  split
  · next h => rw [if_pos (beq_iff_eq.1 h)]
  · next h => rw [if_neg (beq_eq_false_iff_ne.1 h)]

theorem lookup_put (method other : Method) (t : Table α) : ∀ l : List (Method × Table α),
    (put method t l).lookup other = if other = method then some t else l.lookup other
  | [] => lookup_cons_eq_ite method other t []
  | (first, old) :: l => by
    rw [put]
    split
    · next hf =>
      subst hf
      simp only [lookup_cons_eq_ite]
      split <;> rfl
    · next hf =>
      simp only [lookup_cons_eq_ite, lookup_put method other t l]
      by_cases h : other = first
      · simp [h, hf]
      · simp [h]

theorem table?_set (m : MethodTable α) (method other : Method) (t : Table α) :
    (m.set method t).table? other = if other = method then some t else m.table? other :=
  lookup_put method other t m.tables

theorem table?_set_self (m : MethodTable α) (method : Method) (t : Table α) :
    (m.set method t).table? method = some t := by
  rw [table?_set, if_pos rfl]

theorem table?_set_of_ne (m : MethodTable α) {method other : Method} (h : other ≠ method)
    (t : Table α) : (m.set other t).table? method = m.table? method := by
  rw [table?_set, if_neg h.symm]

theorem mem_methods_iff (m : MethodTable α) (method : Method) :
    method ∈ m.methods ↔ (m.table? method).isSome = true := by
  rw [table?, List.lookup_isSome_iff, methods, List.mem_map]
  exact exists_congr fun e => and_congr_right fun _ => by rw [beq_iff_eq, eq_comm]

section Compiling

theorem answer_compileTable (m : MethodTable α) (method : Method) :
    (m.compileTable method).answer = (Slot.compileAnswer (m.table? method)).getD (.ok ()) := by
  rw [compileTable]
  cases m.table? method <;> rfl

theorem table?_compileTable (m : MethodTable α) (method other : Method) :
    (m.compileTable method).state.table? other =
      if other = method then Slot.compiled (m.table? other) else m.table? other := by
  rw [compileTable]
  by_cases h : other = method
  · subst h
    rw [if_pos rfl]
    rcases ht : m.table? other with _ | t
    · exact ht
    · exact table?_set_self m other _
  · rw [if_neg h]
    rcases m.table? method with _ | t
    · rfl
    · exact table?_set_of_ne m (Ne.symm h) _

/-- Compiling up to the first table that fails compiles some of the tables. -/
theorem table?_compileAll (other : Method) : ∀ (order : List Method) (m : MethodTable α),
    (m.compileAll order).state.table? other = m.table? other ∨
      (m.compileAll order).state.table? other = Slot.compiled (m.table? other)
  | [], _ => .inl rfl
  | method :: order, m => by
    have hf : (m.compileTable method).state.table? other = m.table? other ∨
        (m.compileTable method).state.table? other = Slot.compiled (m.table? other) := by
      rw [table?_compileTable]
      split
      · exact .inr rfl
      · exact .inl rfl
    rw [compileAll]
    split
    -- The first failure ends the round, else the tables behind are compiled from what is left.
    · exact hf
    · rcases table?_compileAll other order (m.compileTable method).state with ih | ih
      · exact hf.imp ih.trans ih.trans
      · refine .inr (ih.trans ?_)
        rcases hf with hf | hf
        · rw [hf]
        · rw [hf, Slot.compiled_compiled]

/-- Compiling each table leaves each as compiling it once does. -/
theorem table?_compileEach (other : Method) : ∀ (order : List Method) (m : MethodTable α),
    (m.compileEach order).state.table? other =
      if other ∈ order then Slot.compiled (m.table? other) else m.table? other
  | [], _ => by simp [compileEach, Outcome.quiet]
  | method :: order, m => by
    rw [compileEach]
    dsimp only
    rw [table?_compileEach other order, table?_compileTable]
    by_cases h : other = method
    · simp [h, Slot.compiled_compiled]
    · simp [h]

theorem lookup_compileEach (other : Method) : ∀ (order : List Method) (m : MethodTable α),
    (m.compileEach order).answer.lookup other =
      if other ∈ order then some ((Slot.compileAnswer (m.table? other)).getD (.ok ())) else none
  | [], _ => by simp [compileEach, Outcome.quiet]
  | method :: order, m => by
    rw [compileEach, lookup_cons_eq_ite, lookup_compileEach other order, answer_compileTable,
      table?_compileTable]
    by_cases h : other = method
    · simp [h]
    · simp [h]

/-- The two rounds of compiling, seen from one method. -/
theorem compileEach_methods (m : MethodTable α) (order : List Method) (method : Method) :
    let all := (m.compileAll order).state
    (all.compileEach all.methods).state.table? method = Slot.compiled (m.table? method) ∧
      (all.compileEach all.methods).answer.lookup method = Slot.compileAnswer (m.table? method) := by
  intro all
  have ha : Slot.compiled (all.table? method) = Slot.compiled (m.table? method) ∧
      Slot.compileAnswer (all.table? method) = Slot.compileAnswer (m.table? method) := by
    rcases table?_compileAll method order m with h | h
    · rw [h]
      exact ⟨rfl, rfl⟩
    · rw [h]
      exact ⟨Slot.compiled_compiled _, Slot.compileAnswer_compiled _⟩
  rw [table?_compileEach, lookup_compileEach, ← ha.1, ← ha.2]
  -- The second round visits the methods that have a table, so only those without one are left out.
  have hm := all.mem_methods_iff method
  rcases ht : all.table? method with _ | t
  · rw [ht] at hm
    have hn : method ∉ all.methods := fun h => by simpa using hm.1 h
    rw [if_neg hn, if_neg hn]
    exact ⟨rfl, rfl⟩
  · rw [ht] at hm
    have hy : method ∈ all.methods := hm.2 rfl
    rw [if_pos hy, if_pos hy]
    exact ⟨rfl, rfl⟩

end Compiling

section Run

/-- The places of a method in the tables and in their saved copy. -/
def slots (method : Method) (s : Session (MethodTable α)) : Session (Slot α) :=
  ⟨s.current.table? method, s.saved.table? method⟩

/-- A step for another method leaves the places of a method as they are. -/
theorem slots_step_of_none (call : α → γ → Params → β) {method : Method}
    (s : Session (MethodTable α)) {st : Step α γ} (h : st.toSlot? method = none) :
    slots method (step call s st).state = slots method s := by
  have hset : ∀ {other : Method}, other ≠ method → ∀ t : Table α,
      slots method (s.set (s.current.set other t)) = slots method s := fun ho t =>
    congrArg (Session.mk · _) (table?_set_of_ne s.current ho t)
  have hne : ∀ {other : Method} {own : Slot.Step α γ},
      (if other = method then some own else none) = none → other ≠ method := fun h ho => by
    rw [if_pos ho] at h
    cases h
  cases st with
  | insert other pattern value => exact hset (hne h) _
  | tryInsert other pattern value => exact hset (hne h) _
  | table other => rfl
  | save => cases h
  | swap => cases h
  | compileAll => cases h
  | find other url =>
    simp only [step, find]
    split
    · exact hset (hne h) _
    · rfl
  | dispatch other url context =>
    simp only [step, dispatch]
    split
    · exact hset (hne h) _
    · rfl

theorem slots_set (s : Session (MethodTable α)) (method : Method) (t : Table α) :
    slots method (s.set (s.current.set method t)) = (slots method s).set (some t) :=
  congrArg (Session.mk · _) (table?_set_self s.current method t)

/-- A step that concerns a method shows and leaves of its table what it does by itself. -/
theorem step_eq (call : α → γ → Params → β) {method : Method} (s : Session (MethodTable α))
    {st : Step α γ} {own : Slot.Step α γ} (h : st.toSlot? method = some own) :
    let o := step call s st
    let alone := Slot.step call (slots method s) own
    own.shows (o.answer.toSlot method, o.events) = own.shows (alone.answer, alone.events) ∧
      slots method o.state = alone.state := by
  have heq : ∀ {other : Method} {step own : Slot.Step α γ},
      (if other = method then some step else none) = some own → other = method ∧ step = own :=
    fun h => by
      split at h
      · next ho => exact ⟨ho, Option.some.inj h⟩
      · cases h
  cases st with
  | insert other pattern value =>
    obtain ⟨rfl, rfl⟩ := heq h
    refine ⟨?_, slots_set s other _⟩
    simp only [step, insert, summary?, table?_set_self]
    rfl
  | tryInsert other pattern value =>
    obtain ⟨rfl, rfl⟩ := heq h
    refine ⟨?_, slots_set s other _⟩
    simp only [step, tryInsert, summary?, Outcome.map, Outcome.mapState, table?_set_self]
    rfl
  | table other =>
    obtain ⟨rfl, rfl⟩ := heq h
    exact ⟨rfl, rfl⟩
  | save =>
    cases h
    exact ⟨rfl, rfl⟩
  | swap =>
    cases h
    exact ⟨rfl, rfl⟩
  | compileAll =>
    cases h
    obtain ⟨ht, hr⟩ := compileEach_methods s.current s.current.methods method
    obtain ⟨ha, hs⟩ := Slot.step_compileAll call (slots method s)
    refine ⟨Prod.ext ?_ rfl, ?_⟩
    · exact (congrArg Slot.Reply.compiled hr).trans ha.symm
    · exact (congrArg (Session.mk · _) ht).trans hs.symm
  | find other url =>
    obtain ⟨rfl, rfl⟩ := heq h
    have hs : (slots other s).current = s.current.table? other := rfl
    simp only [step, find, Slot.step, Slot.consult, hs]
    rcases s.current.table? other with _ | t
    · exact ⟨rfl, rfl⟩
    · exact ⟨rfl, slots_set s other _⟩
  | dispatch other url context =>
    obtain ⟨rfl, rfl⟩ := heq h
    have hs : (slots other s).current = s.current.table? other := rfl
    simp only [step, dispatch, Slot.step, Slot.consult, hs]
    rcases s.current.table? other with _ | t
    · exact ⟨rfl, rfl⟩
    · exact ⟨rfl, slots_set s other _⟩

/-- A run shows of a method what its table by itself shows of the steps that concern it. -/
theorem run_eq (call : α → γ → Params → β) (method : Method) : ∀ (steps : List (Step α γ))
    (s : Session (MethodTable α)),
      let own := steps.filterMap (Step.toSlot? method)
      let alone := Slot.run call (slots method s) own
      seen method steps (run call s steps).1 = Slot.seen own alone.1 ∧
        slots method (run call s steps).2 = alone.2
  | [], _ => ⟨rfl, rfl⟩
  | first :: steps, s => by
    obtain ⟨ihr, ihs⟩ := run_eq call method steps (step call s first).state
    rcases hf : first.toSlot? method with _ | own
    · rw [slots_step_of_none call s hf] at ihr ihs
      simp only [run, seen, List.zip_cons_cons, List.filterMap_cons, hf, Option.map_none]
      exact ⟨ihr, ihs⟩
    · obtain ⟨hr, hs⟩ := step_eq call s hf
      rw [hs] at ihr ihs
      simp only [run, seen, Slot.run, Slot.seen, List.zip_cons_cons, List.filterMap_cons, hf,
        Option.map_some, List.zipWith_cons_cons, hr]
      exact ⟨congrArg _ ihr, ihs⟩

theorem slots_step_of_absent (call : α → γ → Params → β) {method : Method}
    {s : Session (MethodTable α)} (hs : slots method s = .start none) {st : Step α γ}
    (hi : st.insertsFor method = false) : slots method (step call s st).state = .start none := by
  rcases hst : st.toSlot? method with _ | own
  · exact (slots_step_of_none call s hst).trans hs
  · rw [Step.insertsFor, hst, Option.any_some] at hi
    rw [(step_eq call s hst).2, hs]
    cases own with
    | insert pattern value => cases hi
    | tryInsert pattern value => cases hi
    | table => rfl
    | save => rfl
    | swap => rfl
    | compileAll => rfl
    | find url => rfl
    | dispatch url context => rfl

/-- A method has no table as long as nothing is inserted for it. -/
theorem slots_run_of_absent (call : α → γ → Params → β) {method : Method} :
    ∀ (steps : List (Step α γ)) {s : Session (MethodTable α)}, slots method s = .start none →
      (∀ st ∈ steps, st.insertsFor method = false) →
        slots method (run call s steps).2 = .start none
  | [], _, hs, _ => hs
  | first :: steps, _, hs, hi => by
    obtain ⟨hf, hi⟩ := List.forall_mem_cons.1 hi
    exact slots_run_of_absent call steps (slots_step_of_absent call hs hf) hi

/-- What a run shows of a method, events included, is what a table by itself shows of the steps that
concern the method. The table is there from the first insertion on, even if that fails. Before it,
lookups find and report nothing and leave all as it is, and compiling makes no table. -/
theorem methods_isolated (call : α → γ → Params → β) (method : Method)
    (steps : List (Step α γ)) :
    let own := steps.filterMap (Step.toSlot? method)
    let reached := run call (.start .empty) steps
    let alone := Slot.run call (.start none) own
    seen method steps reached.1 = Slot.seen own alone.1 ∧
    reached.2.current.table? method = alone.2.current ∧
    reached.2.saved.table? method = alone.2.saved ∧
    (∀ pattern value,
      ((step call reached.2 (.insert method pattern value)).state.current.table? method).isSome ∧
      ((step call reached.2 (.tryInsert method pattern value)).state.current.table? method).isSome) ∧
    ((∀ st ∈ steps, st.insertsFor method = false) →
      reached.2.current.table? method = none ∧ reached.2.saved.table? method = none) ∧
    (reached.2.current.table? method = none →
      (∀ url, step call reached.2 (.find method url) = .quiet (.found (.ok none)) reached.2) ∧
      (∀ url context, step call reached.2 (.dispatch method url context) =
        .quiet (.dispatched (.ok none)) reached.2) ∧
      (step call reached.2 .compileAll).state.current.table? method = none) := by
  intro own reached alone
  obtain ⟨hr, hs⟩ := run_eq call method steps (.start .empty)
  refine ⟨hr, congrArg Session.current hs, congrArg Session.saved hs, fun pattern value => ⟨?_, ?_⟩,
    fun hi => ?_, fun hn => ⟨fun url => ?_, fun url context => ?_, ?_⟩⟩
  · exact Option.isSome_iff_exists.2 ⟨_, table?_set_self reached.2.current method _⟩
  · exact Option.isSome_iff_exists.2 ⟨_, table?_set_self reached.2.current method _⟩
  · have ha := slots_run_of_absent call steps (s := .start .empty) rfl hi
    exact ⟨congrArg Session.current ha, congrArg Session.saved ha⟩
  · simp only [step, find, hn]
    rfl
  · simp only [step, dispatch, hn]
    rfl
  · exact (compileEach_methods _ _ method).1.trans (by rw [hn]; rfl)

theorem methods_isolated_interleaved :
    let call : Nat → Unit → Params → Nat := fun value _ _ => value
    let get : Method := ⟨"GET", by decide⟩
    let put : Method := ⟨"PUT", by decide⟩
    let head : Method := ⟨"HEAD", by decide⟩
    let steps : List (Step Nat Unit) := [.insert get "/a" 1, .tryInsert put "/b(" 2, .save,
      .find get "/a", .insert get "/c" 3, .compileAll, .swap, .find put "/a", .table get]
    let own : List (Slot.Step Nat Unit) :=
      [.insert "/a" 1, .save, .find "/a", .insert "/c" 3, .compileAll, .swap, .table]
    let reached := run call (.start .empty) steps
    seen get steps reached.1 = Slot.seen own (Slot.run call (.start none) own).1 ∧
      (reached.2.current.table? put).isSome ∧
      (∀ st ∈ steps, st.insertsFor head = false) ∧
      step call reached.2 (.find head "/a") = .quiet (.found (.ok none)) reached.2 := by
  intro call get put head steps own reached
  have hi : ∀ st ∈ steps, st.insertsFor head = false := by decide +kernel
  obtain ⟨hs, -⟩ := methods_isolated call get steps
  obtain ⟨-, -, -, -, ha, hf⟩ := methods_isolated call head steps
  exact ⟨hs, by decide +kernel, hi, (hf (ha hi).1).1 "/a"⟩

end Run

end MethodTable

end PathRouting
