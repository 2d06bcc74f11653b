import PathRouting.Proofs.MethodTable.Isolation
import PathRouting.Proofs.Table.Valid

/-!
# A round may visit the methods in any order

Compiling the tables of all methods is a round: it visits the methods in some order and ends at the
first table that fails, so the order decides which tables are left compiled. It fails if and only if
one of the tables does (`answer_compileAll_eq_ok_iff`).

What steps answer depends on the places of the methods one by one: a relation of these places that
the steps of one table keep is kept by the steps of all tables (`step_congr`, `compileAll_congr`).
Tables with one listing are so related, whatever is compiled of them (`Slot.Alike`), and a round
leaves the listings as they are (`alike_compileAll`). So nothing that is answered later shows in
which order a round was made.
-/

namespace PathRouting

variable {α β γ δ : Type}

/-- States that are related, and saved copies that are. -/
structure Session.Related {σ : Type} (R : σ → σ → Prop) (s s' : Session σ) : Prop where
  current : R s.current s'.current
  saved : R s.saved s'.saved

/-- What compiling the table reports. -/
def Slot.compileEvents (t : Slot α) : List Event :=
  (t.map fun t => t.compileAll.events).getD []

theorem Slot.Step.fst_shows (own : Slot.Step α γ) (o : Slot.Reply α β × List Event) :
    (own.shows o).1 = o.1 := by
  cases own <;> rfl

namespace MethodTable

section Runs

/-- A step, where a round over all tables visits the methods in the order that is given with it and
ends at the first table that fails. -/
def stepIn (call : α → γ → Params → β) (s : Session (MethodTable α)) (order : List Method) :
    Step α γ → Outcome (Session (MethodTable α)) (Reply α β)
  | .compileAll => ((s.current.compileAll order).map fun all => .compiled all []).mapState s.set
  | st => step call s st

/-- The replies to steps, each with its events, and the session after the last. -/
def runIn (call : α → γ → Params → β) (s : Session (MethodTable α)) :
    List (Step α γ × List Method) → List (Reply α β × List Event) × Session (MethodTable α)
  | [] => ([], s)
  | (first, order) :: steps =>
    let o := stepIn call s order first
    let others := runIn call o.state steps
    ((o.answer, o.events) :: others.1, others.2)

/-- Tables and a saved copy that steps lead to from no tables, with rounds in any orders. -/
def Reachable (call : α → γ → Params → β) (s : Session (MethodTable α)) : Prop :=
  ∃ steps, (runIn call (.start .empty) steps).2 = s

theorem stepIn_of_ne (call : α → γ → Params → β) (s : Session (MethodTable α))
    (order : List Method) {st : Step α γ} (h : st ≠ .compileAll) :
    stepIn call s order st = step call s st := by
  cases st with
  | compileAll => exact absurd rfl h
  | _ => rfl

theorem runIn_append (call : α → γ → Params → β) : ∀ (first then' : List (Step α γ × List Method))
    (s : Session (MethodTable α)),
      (runIn call s (first ++ then')).2 = (runIn call (runIn call s first).2 then').2
  | [], _, _ => rfl
  | _ :: first, then', _ => runIn_append call first then' _

theorem state_compileAll_singleton (m : MethodTable α) (method : Method) :
    (m.compileAll [method]).state = (m.compileTable method).state := by
  rw [compileAll]
  split <;> rfl

/-- Compiling each table is a round for each method. -/
theorem runIn_compileEach (call : α → γ → Params → β) : ∀ (order : List Method)
    (m saved : MethodTable α),
      (runIn call ⟨m, saved⟩ (order.map fun method => (.compileAll, [method]))).2 =
        ⟨(m.compileEach order).state, saved⟩
  | [], _, _ => rfl
  | method :: order, m, saved => by
    have hs : (stepIn call ⟨m, saved⟩ [method] .compileAll).state =
        ⟨(m.compileTable method).state, saved⟩ :=
      congrArg (Session.mk · saved) (m.state_compileAll_singleton method)
    simp only [List.map_cons, runIn, hs, runIn_compileEach call order]
    rfl

theorem reachable_start (call : α → γ → Params → β) :
    Reachable call (.start (.empty : MethodTable α)) :=
  ⟨[], rfl⟩

theorem reachable_runIn {call : α → γ → Params → β} {s : Session (MethodTable α)}
    (h : Reachable call s) (steps : List (Step α γ × List Method)) :
    Reachable call (runIn call s steps).2 := by
  obtain ⟨before, rfl⟩ := h
  exact ⟨before ++ steps, runIn_append call before steps _⟩

/-- Steps whose rounds are followed by compiling each table reach nothing else. -/
theorem reachable_step {call : α → γ → Params → β} {s : Session (MethodTable α)}
    (h : Reachable call s) (st : Step α γ) : Reachable call (step call s st).state := by
  by_cases hst : st = .compileAll
  · subst hst
    let all := (s.current.compileAll s.current.methods).state
    have hall : Reachable call (s.set all) := reachable_runIn h [(.compileAll, s.current.methods)]
    have heach := reachable_runIn hall (all.methods.map fun method => (.compileAll, [method]))
    exact (congrArg (Reachable call) (runIn_compileEach call all.methods all s.saved)).mp heach
  · have hr := reachable_runIn h [(st, [])]
    simp only [runIn, stepIn_of_ne call s [] hst] at hr
    exact hr

theorem reachable_run {call : α → γ → Params → β} : ∀ (steps : List (Step α γ))
    {s : Session (MethodTable α)}, Reachable call s → Reachable call (run call s steps).2
  | [], _, h => h
  | first :: steps, _, h => reachable_run steps (reachable_step h first)

end Runs

section Answers

theorem events_compileTable (m : MethodTable α) (method : Method) :
    (m.compileTable method).events = Slot.compileEvents (m.table? method) := by
  rw [compileTable]
  cases m.table? method <;> rfl

/-- Compiling a table leaves what compiling any table answers. -/
theorem answer_compileTable_compileTable (m : MethodTable α) (first method : Method) :
    ((m.compileTable first).state.compileTable method).answer = (m.compileTable method).answer := by
  rw [answer_compileTable, answer_compileTable, table?_compileTable]
  split
  · rw [Slot.compileAnswer_compiled]
  · rfl

/-- A round succeeds if and only if each table that it visits does. -/
theorem answer_compileAll_eq_ok_iff : ∀ (order : List Method) (m : MethodTable α),
    (m.compileAll order).answer = .ok () ↔
      ∀ method ∈ order, (m.compileTable method).answer = .ok ()
  | [], m => by simp [compileAll, Outcome.quiet]
  | method :: order, m => by
    have ih := answer_compileAll_eq_ok_iff order (m.compileTable method).state
    simp only [answer_compileTable_compileTable] at ih
    rw [List.forall_mem_cons, compileAll]
    split
    · next e he => simp [he]
    · next he => simp [he, ih]

theorem exists_of_compileAll_eq_error {e : CompileError} : ∀ (order : List Method)
    {m : MethodTable α}, (m.compileAll order).answer = .error e →
      ∃ method ∈ order, (m.compileTable method).answer = .error e
  | [], _, h => by cases h
  | method :: order, m, h => by
    rw [compileAll] at h
    split at h
    · next e' he =>
      exact ⟨method, List.mem_cons_self, h⟩
    · obtain ⟨other, ho, hc⟩ := exists_of_compileAll_eq_error order h
      rw [answer_compileTable_compileTable] at hc
      exact ⟨other, List.mem_cons_of_mem method ho, hc⟩

end Answers

section Congr

/-- But for rounds, what a reply says of its method is all that it says. -/
theorem Reply.eq_of_toSlot_eq (method : Method) {a b : Reply α β}
    (h : a.toSlot method = b.toSlot method) (ha : ∀ all each, a ≠ .compiled all each) : a = b := by
  cases a with
  | compiled all each => exact absurd rfl (ha all each)
  | _ => cases b <;> simp_all [toSlot]

theorem Step.exists_toSlot? (st : Step α γ) : ∃ method own, st.toSlot? method = some own := by
  cases st with
  | insert method | tryInsert method | table method | find method | dispatch method =>
    exact ⟨method, _, if_pos rfl⟩
  | save | swap | compileAll => exact ⟨⟨"GET", by decide⟩, _, rfl⟩

theorem answer_step_ne_compiled (call : α → γ → Params → β) (s : Session (MethodTable α))
    {st : Step α γ} (h : st ≠ .compileAll) :
    ∀ all each, (step call s st).answer ≠ .compiled all each := by
  cases st with
  | compileAll => exact absurd rfl h
  | _ => nofun

theorem toSlot_answer_step (call : α → γ → Params → β) {method : Method}
    (s : Session (MethodTable α)) {st : Step α γ} {own : Slot.Step α γ}
    (h : st.toSlot? method = some own) :
    (step call s st).answer.toSlot method = (Slot.step call (slots method s) own).answer := by
  have hs := congrArg Prod.fst (step_eq call s h).1
  rwa [Slot.Step.fst_shows, Slot.Step.fst_shows] at hs

variable {R : Method → Slot α → Slot α → Prop}

/-- What the places of each method have in common is kept by steps of all tables, and answered
alike, if it is by the steps of one table. -/
theorem step_congr (call : α → γ → Params → β) {s s' : Session (MethodTable α)} {st : Step α γ}
    (hst : st ≠ .compileAll)
    (h : ∀ method, Session.Related (R method) (slots method s) (slots method s'))
    (hR : ∀ method own, st.toSlot? method = some own →
      (Slot.step call (slots method s) own).answer =
          (Slot.step call (slots method s') own).answer ∧
        Session.Related (R method) (Slot.step call (slots method s) own).state
          (Slot.step call (slots method s') own).state) :
    (step call s st).answer = (step call s' st).answer ∧
      ∀ method, Session.Related (R method) (slots method (step call s st).state)
        (slots method (step call s' st).state) := by
  refine ⟨?_, fun method => ?_⟩
  · obtain ⟨method, own, ho⟩ := st.exists_toSlot?
    refine Reply.eq_of_toSlot_eq method ?_ (answer_step_ne_compiled call s hst)
    rw [toSlot_answer_step call s ho, toSlot_answer_step call s' ho]
    exact (hR method own ho).1
  · rcases ho : st.toSlot? method with _ | own
    · rw [slots_step_of_none call s ho, slots_step_of_none call s' ho]
      exact h method
    · rw [(step_eq call s ho).2, (step_eq call s' ho).2]
      exact (hR method own ho).2

/-- What the places of each method have in common is kept by rounds, and answered alike, if it is by
compiling one table. -/
theorem compileAll_congr (hR : ∀ method a b, R method a b →
      (Slot.compileAnswer a).getD (.ok ()) = (Slot.compileAnswer b).getD (.ok ()) ∧
        R method (Slot.compiled a) (Slot.compiled b)) :
    ∀ (order : List Method) {m m' : MethodTable α},
      (∀ method, R method (m.table? method) (m'.table? method)) →
        (m.compileAll order).answer = (m'.compileAll order).answer ∧
        (∀ method, R method ((m.compileAll order).state.table? method)
          ((m'.compileAll order).state.table? method)) ∧
        ((∀ method a b, R method a b → Slot.compileEvents a = Slot.compileEvents b) →
          (m.compileAll order).events = (m'.compileAll order).events)
  | [], _, _, h => ⟨rfl, h, fun _ => rfl⟩
  | method :: order, m, m', h => by
    have ha : (m.compileTable method).answer = (m'.compileTable method).answer := by
      rw [answer_compileTable, answer_compileTable]
      exact (hR method _ _ (h method)).1
    have ht : ∀ other, R other ((m.compileTable method).state.table? other)
        ((m'.compileTable method).state.table? other) := fun other => by
      rw [table?_compileTable, table?_compileTable]
      split
      · exact (hR other _ _ (h other)).2
      · exact h other
    have he : (∀ method a b, R method a b → Slot.compileEvents a = Slot.compileEvents b) →
        (m.compileTable method).events = (m'.compileTable method).events := fun hE => by
      rw [events_compileTable, events_compileTable]
      exact hE method _ _ (h method)
    obtain ⟨iha, iht, ihe⟩ := compileAll_congr hR order ht
    simp only [compileAll, ← ha]
    split
    · exact ⟨ha, ht, he⟩
    · exact ⟨iha, iht, fun hE => by simp only [he hE, ihe hE]⟩

end Congr

end MethodTable

theorem Table.summary_eq_of_listing_eq {t t' : Table α} (hl : t.listing = t'.listing) :
    t.summary = t'.summary := by
  rw [← summary_listing, ← summary_listing, hl]

namespace Slot

/-- No table on either side, or valid tables with one listing. -/
inductive Alike : Slot α → Slot α → Prop
  | absent : Alike none none
  | present {t t' : Table α} (h : t.Valid) (h' : t'.Valid) (hl : t.listing = t'.listing) :
    Alike (some t) (some t')

variable {t t' : Slot α}

theorem Alike.getD_empty (h : Alike t t') :
    (t.getD .empty).Valid ∧ (t'.getD .empty).Valid ∧
      (t.getD .empty).listing = (t'.getD .empty).listing := by
  cases h with
  | absent => exact ⟨Table.valid_empty, Table.valid_empty, rfl⟩
  | present h h' hl => exact ⟨h, h', hl⟩

theorem Alike.map_summary (h : Alike t t') : t.map Table.summary = t'.map Table.summary := by
  cases h with
  | absent => rfl
  | present _ _ hl => exact congrArg some (Table.summary_eq_of_listing_eq hl)

/-- Lookups and compilations depend on the listing, and leave it as it is. -/
theorem alike_consult {s s' : Session (Slot α)} (h : Session.Related Alike s s') (absent : δ)
    {ask : Table α → Outcome (Table α) δ} (answer : Listing α → δ)
    (hask : ∀ {t : Table α}, t.Valid → Table.Refines (ask t) (answer t.listing) t.listing) :
    (consult s absent ask).answer = (consult s' absent ask).answer ∧
      Session.Related Alike (consult s absent ask).state (consult s' absent ask).state := by
  obtain ⟨current, saved⟩ := s
  obtain ⟨current', saved'⟩ := s'
  obtain ⟨hc, hs⟩ := h
  cases hc with
  | absent => exact ⟨rfl, .absent, hs⟩
  | present ht ht' hl =>
    have ho := hask ht
    have ho' := hask ht'
    refine ⟨?_, .present ho.valid ho'.valid ?_, hs⟩
    · exact ho.answer_eq.trans ((congrArg answer hl).trans ho'.answer_eq.symm)
    · exact ho.listing_eq.trans (hl.trans ho'.listing_eq.symm)

/-- Tables with one listing answer alike, and have one listing afterwards. -/
theorem alike_step (call : α → γ → Params → β) {s s' : Session (Slot α)}
    (h : Session.Related Alike s s') (own : Step α γ) :
    (step call s own).answer = (step call s' own).answer ∧
      Session.Related Alike (step call s own).state (step call s' own).state := by
  obtain ⟨hv, hv', hl⟩ := h.current.getD_empty
  cases own with
  | insert pattern value =>
    have hi : ((s.current.getD .empty).insert pattern value).listing =
        ((s'.current.getD .empty).insert pattern value).listing := by
      rw [Table.listing_insert hv, Table.listing_insert hv', hl]
    refine ⟨congrArg (Reply.table ∘ some) (Table.summary_eq_of_listing_eq hi), ?_, h.saved⟩
    exact .present (Table.valid_insert hv pattern value) (Table.valid_insert hv' pattern value) hi
  | tryInsert pattern value =>
    have ho := Table.refines_tryInsert hv pattern value
    have ho' := Table.refines_tryInsert hv' pattern value
    rw [← hl] at ho'
    have ha := ho.answer_eq.trans ho'.answer_eq.symm
    have hi := ho.listing_eq.trans ho'.listing_eq.symm
    refine ⟨?_, .present ho.valid ho'.valid hi, h.saved⟩
    simp only [step, Outcome.map, Outcome.mapState, ha, Table.summary_eq_of_listing_eq hi]
  | table => exact ⟨congrArg Reply.table h.current.map_summary, h⟩
  | save => exact ⟨rfl, h.current, h.current⟩
  | swap => exact ⟨rfl, h.saved, h.current⟩
  | compileAll =>
    have hr : ∀ {t : Table α}, t.Valid → Table.Refines (t.compileAll.map some)
        (some (Listing.compileAll t.listing)) t.listing := fun ht =>
      have ho := Table.refines_compileAll ht
      ⟨congrArg some ho.answer_eq, ho.listing_eq, ho.valid⟩
    obtain ⟨ha, hs⟩ := alike_consult h none (fun l => some (Listing.compileAll l)) hr
    exact ⟨congrArg Reply.compiled ha, hs⟩
  | find url =>
    obtain ⟨ha, hs⟩ := alike_consult h (.ok none) (Listing.find url)
      fun ht => Table.refines_find ht url
    exact ⟨congrArg Reply.found ha, hs⟩
  | dispatch url context =>
    obtain ⟨ha, hs⟩ := alike_consult h (.ok none) (Listing.dispatch call url context)
      fun ht => Table.refines_dispatch call ht url context
    exact ⟨congrArg Reply.dispatched ha, hs⟩

theorem alike_compiled (h : Alike t t') :
    compileAnswer t = compileAnswer t' ∧ Alike (compiled t) (compiled t') := by
  cases h with
  | absent => exact ⟨rfl, .absent⟩
  | present h h' hl =>
    have ho := Table.refines_compileAll h
    have ho' := Table.refines_compileAll h'
    rw [← hl] at ho'
    exact ⟨congrArg some (ho.answer_eq.trans ho'.answer_eq.symm),
      .present ho.valid ho'.valid (ho.listing_eq.trans ho'.listing_eq.symm)⟩

/-- Compiling leaves the listing as it is. -/
theorem alike_compiled_right (h : Alike t t') : Alike t (compiled t') := by
  cases h with
  | absent => exact .absent
  | present h h' hl =>
    have ho := Table.refines_compileAll h'
    exact .present h ho.valid (hl.trans ho.listing_eq.symm)

end Slot

namespace MethodTable

/-- The tables of each method have one listing. -/
def Alike (s s' : Session (MethodTable α)) : Prop :=
  ∀ method, Session.Related Slot.Alike (slots method s) (slots method s')

theorem alike_stepIn (call : α → γ → Params → β) {s s' : Session (MethodTable α)}
    (h : Alike s s') (order : List Method) (st : Step α γ) :
    (stepIn call s order st).answer = (stepIn call s' order st).answer ∧
      Alike (stepIn call s order st).state (stepIn call s' order st).state := by
  by_cases hst : st = .compileAll
  · subst hst
    obtain ⟨ha, ht, -⟩ := compileAll_congr (R := fun _ => Slot.Alike)
      (fun _ _ _ hab => (Slot.alike_compiled hab).imp (congrArg (Option.getD · _)) id) order
      fun method => (h method).current
    exact ⟨congrArg (Reply.compiled · []) ha, fun method => ⟨ht method, (h method).saved⟩⟩
  · rw [stepIn_of_ne call s order hst, stepIn_of_ne call s' order hst]
    exact step_congr call hst h fun method own _ => Slot.alike_step call (h method) own

theorem alike_runIn (call : α → γ → Params → β) : ∀ (steps : List (Step α γ × List Method))
    {s s' : Session (MethodTable α)}, Alike s s' →
      (runIn call s steps).1.map Prod.fst = (runIn call s' steps).1.map Prod.fst ∧
        Alike (runIn call s steps).2 (runIn call s' steps).2
  | [], _, _, h => ⟨rfl, h⟩
  | (first, order) :: steps, s, s', h => by
    obtain ⟨ha, hs⟩ := alike_stepIn call h order first
    obtain ⟨iha, ihs⟩ := alike_runIn call steps hs
    simp only [runIn, List.map_cons, ha, iha]
    exact ⟨trivial, ihs⟩

theorem Reachable.alike {call : α → γ → Params → β} {s : Session (MethodTable α)}
    (h : Reachable call s) : Alike s s := by
  obtain ⟨steps, rfl⟩ := h
  have hs : Alike (.start .empty) (.start (.empty : MethodTable α)) :=
    fun _ => ⟨.absent, .absent⟩
  exact (alike_runIn call steps hs).2

/-- A round leaves the listings as they are. -/
theorem alike_compileAll {s : Session (MethodTable α)} (h : Alike s s) (order : List Method) :
    Alike s (s.set (s.current.compileAll order).state) := fun method => by
  refine ⟨?_, (h method).saved⟩
  change Slot.Alike (s.current.table? method) ((s.current.compileAll order).state.table? method)
  rcases table?_compileAll method order s.current with ht | ht
  · rw [ht]
    exact (h method).current
  · rw [ht]
    exact Slot.alike_compiled_right (h method).current

/-- In whatever order a round visits the methods, it succeeds if and only if each table compiles,
and else fails as one of the tables does; and nothing that is answered later, by whatever steps,
shows in which order it was, or that it was made at all. -/
theorem rounds_in_any_order (call : α → γ → Params → β) {s : Session (MethodTable α)}
    (h : Reachable call s) {order : List Method} (ho : order.Perm s.current.methods) :
    ((s.current.compileAll order).answer = .ok () ↔
      ∀ method t, s.current.table? method = some t → t.compileAll.answer = .ok ()) ∧
    (∀ e, (s.current.compileAll order).answer = .error e →
      ∃ method t, s.current.table? method = some t ∧ t.compileAll.answer = .error e) ∧
    ∀ other : List Method, other.Perm s.current.methods →
      ∀ later : List (Step α γ × List Method),
        (runIn call (s.set (s.current.compileAll order).state) later).1.map Prod.fst =
          (runIn call (s.set (s.current.compileAll other).state) later).1.map Prod.fst ∧
        (runIn call (s.set (s.current.compileAll order).state) later).1.map Prod.fst =
          (runIn call s later).1.map Prod.fst := by
  have hm : ∀ method t, s.current.table? method = some t → method ∈ order := fun method t ht => by
    rw [ho.mem_iff, mem_methods_iff, ht]
    rfl
  have hc : ∀ method t, s.current.table? method = some t →
      (s.current.compileTable method).answer = t.compileAll.answer := fun method t ht => by
    rw [answer_compileTable, ht]
    rfl
  refine ⟨?_, fun e he => ?_, fun other _ later => ?_⟩
  · rw [answer_compileAll_eq_ok_iff]
    constructor
    · intro hok method t ht
      rw [← hc method t ht]
      exact hok method (hm method t ht)
    · intro hok method _
      rcases ht : s.current.table? method with _ | t
      · rw [answer_compileTable, ht]
        rfl
      · rw [hc method t ht]
        exact hok method t ht
  · obtain ⟨method, -, he⟩ := exists_of_compileAll_eq_error order he
    rcases ht : s.current.table? method with _ | t
    · rw [answer_compileTable, ht] at he
      cases he
    · exact ⟨method, t, ht, (hc method t ht).symm.trans he⟩
  · have hround := fun order => (alike_runIn call later (alike_compileAll h.alike order)).1
    exact ⟨(hround order).symm.trans (hround other), (hround order).symm⟩

theorem rounds_in_any_order_failing :
    let call : Nat → Unit → Params → Nat := fun value _ _ => value
    let get : Method := ⟨"GET", by decide⟩
    let put : Method := ⟨"PUT", by decide⟩
    let s := (run call (.start .empty)
      [.insert get "/a(" 1, .insert put "/:x" 2, .insert put "/b)" 3]).2
    (s.current.compileAll [get, put]).answer = .error ⟨"/a(", .fault .unbalancedGroup⟩ ∧
      (s.current.compileAll [put, get]).answer = .error ⟨"/b)", .fault .unbalancedGroup⟩ ∧
      (runIn call (s.set (s.current.compileAll [get, put]).state)
          [(.find put "/z", []), (.swap, []), (.find put "/z", [])]).1.map Prod.fst =
        (runIn call (s.set (s.current.compileAll [put, get]).state)
          [(.find put "/z", []), (.swap, []), (.find put "/z", [])]).1.map Prod.fst := by
  intro call get put s
  have h : Reachable call s := reachable_run _ (reachable_start call)
  have ho : [get, put].Perm s.current.methods := .refl _
  obtain ⟨-, -, hl⟩ := rounds_in_any_order call h ho
  exact ⟨rfl, rfl, (hl [put, get] (.swap get put []) _).1⟩

end MethodTable

end PathRouting
