import PathRouting.Proofs.MethodTable.Rounds

/-!
# A failed insertion leaves no trace

An insertion that compiles its pattern first and fails leaves its table as it is. With one table for
each method it can at most have made the table of its method, and that is empty (`Slot.Padded`). An
empty table answers as none does, and reports nothing but that a lookup finds nothing in it
(`Slot.padded_consult`, `Slot.padded_step`). So from then on the steps of two runs, one with the
table and one without it, answer the same and, that event apart, report the same
(`padded_stepIn`), until an insertion makes the two tables one.
-/

namespace PathRouting

variable {α β γ δ : Type}

theorem Table.tryInsert_eq_error_iff {t : Table α} {pattern : String} {value : α}
    {e : CompileError} :
    (t.tryInsert pattern value).answer = .error e ↔ compile pattern = .error e := by
  rw [tryInsert, ← attempt_fst]
  split <;> next ha => simp [ha]

theorem Table.state_tryInsert_of_error {t : Table α} {pattern : String} {value : α}
    {e : CompileError} (h : (t.tryInsert pattern value).answer = .error e) :
    (t.tryInsert pattern value).state = t := by
  rw [tryInsert] at h ⊢
  split at h
  · cases h
  · rfl

namespace Slot

/-- The url that a step looks up. -/
def Step.url? : Step α γ → Option String
  | .find url | .dispatch url _ => some url
  | _ => none

/-- The same, or an empty table in the place of none where one may be. -/
inductive Padded (here : Prop) : Slot α → Slot α → Prop
  | same (t : Slot α) : Padded here t t
  | padded (h : here) : Padded here none (some .empty)

variable {here : Prop}

theorem Padded.getD_eq {t t' : Slot α} (h : Padded here t t') :
    t.getD .empty = t'.getD .empty := by
  cases h <;> rfl

theorem Padded.eq_of_not {t t' : Slot α} (h : Padded here t t') (hn : ¬here) : t = t' := by
  cases h with
  | same => rfl
  | padded hh => exact absurd hh hn

/-- A lookup without a table reports nothing, and one in an empty table that nothing matches. -/
def Unheard (t : Slot α) (url? : Option String) (events events' : List Event) : Prop :=
  t = none ∧ ∃ url, url? = some url ∧ events = [] ∧ events' = [.unmatched url]

/-- An empty table answers what is answered without one. -/
theorem padded_consult {s s' : Session (Slot α)} (h : Session.Related (Padded here) s s')
    (absent : δ) (ask : Table α → Outcome (Table α) δ) {url : String}
    (hask : ask .empty = ⟨absent, .empty, [.unmatched url]⟩) :
    (consult s absent ask).answer = (consult s' absent ask).answer ∧
      Session.Related (Padded here) (consult s absent ask).state (consult s' absent ask).state ∧
      ((consult s' absent ask).events = (consult s absent ask).events ∨
        here ∧ Unheard s.current (some url) (consult s absent ask).events
          (consult s' absent ask).events) := by
  obtain ⟨current, saved⟩ := s
  obtain ⟨current', saved'⟩ := s'
  obtain ⟨hc, hs⟩ := h
  cases hc with
  | same =>
    rcases current with _ | t <;> exact ⟨rfl, ⟨.same _, hs⟩, .inl rfl⟩
  | padded hh =>
    simp only [consult, hask]
    exact ⟨rfl, ⟨.padded hh, hs⟩, .inr ⟨hh, rfl, url, rfl, rfl, rfl⟩⟩

/-- Steps answer the same with an empty table as with none, and leave the same. -/
theorem padded_step (call : α → γ → Params → β) {s s' : Session (Slot α)}
    (h : Session.Related (Padded here) s s') {own : Step α γ} (ht : here → own ≠ .table)
    (hc : own ≠ .compileAll) :
    (step call s own).answer = (step call s' own).answer ∧
      Session.Related (Padded here) (step call s own).state (step call s' own).state ∧
      ((step call s' own).events = (step call s own).events ∨
        here ∧ Unheard s.current own.url? (step call s own).events (step call s' own).events) := by
  have hd := h.current.getD_eq
  cases own with
  | insert pattern value =>
    simp only [step, hd]
    exact ⟨rfl, ⟨.same _, h.saved⟩, .inl rfl⟩
  | tryInsert pattern value =>
    simp only [step, hd]
    exact ⟨rfl, ⟨.same _, h.saved⟩, .inl rfl⟩
  | table =>
    have he := h.current.eq_of_not fun hh => ht hh rfl
    exact ⟨congrArg (fun t : Slot α => Reply.table (t.map Table.summary)) he, h, .inl rfl⟩
  | save => exact ⟨rfl, ⟨h.current, h.current⟩, .inl rfl⟩
  | swap => exact ⟨rfl, ⟨h.saved, h.current⟩, .inl rfl⟩
  | compileAll => exact absurd rfl hc
  | find url =>
    obtain ⟨ha, hs, he⟩ := padded_consult h (.ok none) (fun t => t.find url) rfl
    exact ⟨congrArg Reply.found ha, hs, he⟩
  | dispatch url context =>
    obtain ⟨ha, hs, he⟩ :=
      padded_consult h (.ok none) (fun t => t.dispatch call url context) rfl
    exact ⟨congrArg Reply.dispatched ha, hs, he⟩

theorem padded_compiled {t t' : Slot α} (h : Padded here t t') :
    (compileAnswer t).getD (.ok ()) = (compileAnswer t').getD (.ok ()) ∧
      Padded here (compiled t) (compiled t') ∧ compileEvents t = compileEvents t' := by
  cases h with
  | same => exact ⟨rfl, .same _, rfl⟩
  | padded hh => exact ⟨rfl, .padded hh, rfl⟩

end Slot

namespace MethodTable

/-- The url that a step looks up under a method. -/
def Step.url? (method : Method) (st : Step α γ) : Option String :=
  (st.toSlot? method).bind Slot.Step.url?

/-- The same tables, but that a method may have an empty one in the place of none. -/
def Padded (method : Method) (s s' : Session (MethodTable α)) : Prop :=
  ∀ other, Session.Related (Slot.Padded (other = method)) (slots other s) (slots other s')

theorem Step.toSlot?_ne {method : Method} {st : Step α γ} {own : Slot.Step α γ}
    (h : st.toSlot? method = some own) (hst : st ≠ .compileAll) : own ≠ .compileAll := by
  rintro rfl
  cases st with
  | compileAll => exact hst rfl
  | save | swap => cases h
  | _ => simp [toSlot?] at h

theorem Step.eq_table {method : Method} {st : Step α γ} (h : st.toSlot? method = some .table) :
    st = .table method := by
  cases st with
  | table other =>
    obtain rfl : other = method := by simpa [toSlot?] using h
    rfl
  | save | swap | compileAll => cases h
  | _ => simp [toSlot?] at h

theorem events_step (call : α → γ → Params → β) {method : Method}
    (s : Session (MethodTable α)) {st : Step α γ} {own : Slot.Step α γ}
    (h : st.toSlot? method = some own) (hc : own ≠ .compileAll) :
    (step call s st).events = (Slot.step call (slots method s) own).events := by
  have hs := congrArg Prod.snd (step_eq call s h).1
  cases own with
  | compileAll => exact absurd rfl hc
  | _ => exact hs

/-- A step answers the same with the empty table as without it, and reports the same, but that a
lookup in it reports that nothing matches. -/
theorem padded_stepIn (call : α → γ → Params → β) {method : Method}
    {s s' : Session (MethodTable α)} (h : Padded method s s') (order : List Method)
    {st : Step α γ} (ht : st ≠ .table method) :
    (stepIn call s order st).answer = (stepIn call s' order st).answer ∧
      Padded method (stepIn call s order st).state (stepIn call s' order st).state ∧
      ((stepIn call s' order st).events = (stepIn call s order st).events ∨
        Slot.Unheard (s.current.table? method) (st.url? method)
          (stepIn call s order st).events (stepIn call s' order st).events) := by
  by_cases hst : st = .compileAll
  · subst hst
    obtain ⟨ha, hp, he⟩ := compileAll_congr (R := fun other => Slot.Padded (other = method))
      (fun _ _ _ hab => ⟨(Slot.padded_compiled hab).1, (Slot.padded_compiled hab).2.1⟩) order
      fun other => (h other).current
    have hE := he fun _ _ _ hab => (Slot.padded_compiled hab).2.2
    exact ⟨congrArg (Reply.compiled · []) ha, fun other => ⟨hp other, (h other).saved⟩,
      .inl hE.symm⟩
  · rw [stepIn_of_ne call s order hst, stepIn_of_ne call s' order hst]
    have hR : ∀ other own, st.toSlot? other = some own →
        (other = method → own ≠ .table) ∧ own ≠ .compileAll := fun other own ho =>
      ⟨fun hm hown => ht (hm ▸ Step.eq_table (hown ▸ ho)), Step.toSlot?_ne ho hst⟩
    obtain ⟨ha, hs⟩ := step_congr call hst h fun other own ho =>
      have hp := Slot.padded_step call (h other) (hR other own ho).1 (hR other own ho).2
      ⟨hp.1, hp.2.1⟩
    refine ⟨ha, hs, ?_⟩
    -- The step concerns some method, and the events are those of the table of that method.
    obtain ⟨other, own, ho⟩ := st.exists_toSlot?
    obtain ⟨htab, hown⟩ := hR other own ho
    rw [events_step call s ho hown, events_step call s' ho hown]
    refine (Slot.padded_step call (h other) htab hown).2.2.imp id ?_
    rintro ⟨rfl, hn, url, hu, he⟩
    exact ⟨hn, url, (congrArg (Option.bind · _) ho).trans hu, he⟩

theorem padded_runIn (call : α → γ → Params → β) {method : Method} :
    ∀ (steps : List (Step α γ × List Method)) {s s' : Session (MethodTable α)},
      Padded method s s' → (∀ st ∈ steps.map Prod.fst, st ≠ .table method) →
        (runIn call s steps).1.map Prod.fst = (runIn call s' steps).1.map Prod.fst ∧
          Padded method (runIn call s steps).2 (runIn call s' steps).2
  | [], _, _, h, _ => ⟨rfl, h⟩
  | (first, order) :: steps, s, s', h, hl => by
    rw [List.map_cons, List.forall_mem_cons] at hl
    obtain ⟨ha, hp, -⟩ := padded_stepIn call h order hl.1
    obtain ⟨iha, ihp⟩ := padded_runIn call steps hp hl.2
    simp only [runIn, List.map_cons, ha, iha]
    exact ⟨trivial, ihp⟩

theorem put_of_lookup {method : Method} {t : Table α} : ∀ {l : List (Method × Table α)},
    l.lookup method = some t → put method t l = l
  | [], h => by cases h
  | (first, old) :: l, h => by
    rw [lookup_cons_eq_ite] at h
    rw [put]
    split
    · next hf =>
      rw [if_pos hf.symm] at h
      cases h
      rw [hf]
    · next hf =>
      rw [if_neg (Ne.symm hf)] at h
      rw [put_of_lookup h]

theorem set_of_table? {m : MethodTable α} {method : Method} {t : Table α}
    (h : m.table? method = some t) : m.set method t = m :=
  congrArg MethodTable.mk (put_of_lookup h)

/-- A failed insertion may have made the table of its method, and does nothing else. -/
theorem padded_tryInsert {s : Session (MethodTable α)} {method : Method} {pattern : String}
    {value : α} {e : CompileError}
    (h : (s.current.tryInsert method pattern value).answer = .error e) :
    Padded method s (s.set (s.current.tryInsert method pattern value).state) := fun other => by
  refine ⟨?_, .same _⟩
  change Slot.Padded _ (s.current.table? other)
    ((s.current.set method _).table? other)
  rw [Table.state_tryInsert_of_error h, table?_set]
  split
  · next ho =>
    subst ho
    rw [tableD]
    rcases s.current.table? other with _ | t
    · exact .padded rfl
    · exact .same _
  · exact .same _

/-- An insertion that fails does so for the error of its pattern and leaves its table as it is. With
a table for each method it may leave an empty one to its method. Unless that table is asked for by
itself, it shows in nothing that is answered later, and of what is reported only where a lookup would
have had no table. Rounds visit the methods in one order with and without it, and pass over a method
without a table. -/
theorem failed_insertion_leaves_no_trace (call : α → γ → Params → β) (pattern : String) (value : α)
    (e : CompileError) :
    (∀ t : Table α, (t.tryInsert pattern value).answer = .error e →
      compile pattern = .error e ∧ (t.tryInsert pattern value).state = t) ∧
    ∀ (s : Session (MethodTable α)) (method : Method),
      (s.current.tryInsert method pattern value).answer = .error e →
        let m := (s.current.tryInsert method pattern value).state
        compile pattern = .error e ∧
        (∀ other, other ≠ method → m.table? other = s.current.table? other) ∧
        (∀ t, s.current.table? method = some t → m = s.current) ∧
        (s.current.table? method = none → m.table? method = some .empty) ∧
        ∀ later : List (Step α γ × List Method),
          (∀ st ∈ later.map Prod.fst, st ≠ .table method) →
            let plain := runIn call s later
            let tried := runIn call (s.set m) later
            tried.1.map Prod.fst = plain.1.map Prod.fst ∧
            ∀ order st, st ≠ .table method →
              let o := stepIn call plain.2 order st
              let o' := stepIn call tried.2 order st
              o'.answer = o.answer ∧
              (o'.events = o.events ∨
                Slot.Unheard (plain.2.current.table? method) (st.url? method)
                  o.events o'.events) := by
  refine ⟨fun t h => ⟨Table.tryInsert_eq_error_iff.1 h, Table.state_tryInsert_of_error h⟩, ?_⟩
  intro s method h m
  have ht : m = s.current.set method (s.current.tableD method) :=
    congrArg (s.current.set method) (Table.state_tryInsert_of_error h)
  refine ⟨Table.tryInsert_eq_error_iff.1 h, fun other ho => ?_, fun t hs => ?_, fun hs => ?_,
    fun later hl => ?_⟩
  · rw [ht, table?_set_of_ne _ (Ne.symm ho)]
  · rw [ht, tableD, hs]
    exact set_of_table? hs
  · rw [ht, table?_set_self, tableD, hs]
    rfl
  · obtain ⟨ha, hp⟩ := padded_runIn call later (padded_tryInsert h) hl
    refine ⟨ha.symm, fun order st hst => ?_⟩
    obtain ⟨hsa, -, he⟩ := padded_stepIn call hp order hst
    exact ⟨hsa.symm, he⟩

theorem failed_insertion_leaves_no_trace_unheard :
    let call : Nat → Unit → Params → Nat := fun value _ _ => value
    let get : Method := ⟨"GET", by decide⟩
    let put : Method := ⟨"PUT", by decide⟩
    let s := (run call (.start .empty) [.insert put "/a(" 1]).2
    let t := s.current.tableD put
    let m := (s.current.tryInsert get "/a(" 2).state
    (t.tryInsert "/a(" 2).answer = .error ⟨"/a(", .fault .unbalancedGroup⟩ ∧
      (t.tryInsert "/a(" 2).state = t ∧
      m.table? put = s.current.table? put ∧ m.table? get = some .empty ∧
      (runIn call (s.set m) [(.compileAll, [get, put]), (.find get "/a", [])]).1.map Prod.fst =
        (runIn call s [(.compileAll, [get, put]), (.find get "/a", [])]).1.map Prod.fst ∧
      (stepIn call s [] (.find get "/a")).events = [] ∧
      (stepIn call (s.set m) [] (.find get "/a")).events = [.unmatched "/a"] := by
  intro call get put s t m
  obtain ⟨halone, hall⟩ :=
    failed_insertion_leaves_no_trace call "/a(" 2 ⟨"/a(", .fault .unbalancedGroup⟩
  obtain ⟨-, hother, -, hmade, hlater⟩ := hall s get rfl
  have hl : ∀ st ∈ ([(.compileAll, [get, put]), (.find get "/a", [])] :
      List (Step Nat Unit × List Method)).map Prod.fst, st ≠ .table get := by
    simp
  exact ⟨rfl, (halone t rfl).2, hother put (by decide), hmade rfl, (hlater _ hl).1, rfl, rfl⟩

end MethodTable

end PathRouting
