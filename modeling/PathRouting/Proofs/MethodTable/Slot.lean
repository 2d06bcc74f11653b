import PathRouting.MethodTable.Step

/-!
# The table of one method by itself

A slot holds the table of one method, or nothing before the first insertion for it. It takes the
steps that concern its method (`MethodTable.Step.toSlot?`): those for the method, and those for all
methods at once. Its replies are what the replies of all tables say of the one (`Reply.toSlot`).
-/

namespace PathRouting

/-- A table that may not be there yet. -/
abbrev Slot (α : Type) := Option (Table α)

namespace Slot

inductive Step (α γ : Type) where
  | insert (pattern : String) (value : α)
  | tryInsert (pattern : String) (value : α)
  | table
  | save
  | swap
  | compileAll
  | find (url : String)
  | dispatch (url : String) (context : γ)

inductive Reply (α β : Type) where
  | table (table : Option Table.Summary)
  | inserted (result : Except CompileError Unit) (table : Option Table.Summary)
  | done
  | compiled (result : Option (Except CompileError Unit))
  | found (result : Except CompileError (Option (Match α)))
  | dispatched (result : Except CompileError (Option β))

variable {α β γ δ : Type}

/-- An operation of the table, or an answer at once if there is none. -/
def consult (s : Session (Slot α)) (absent : δ) (ask : Table α → Outcome (Table α) δ) :
    Outcome (Session (Slot α)) δ :=
  match s.current with
  | some t => (ask t).mapState fun t => s.set (some t)
  | none => .quiet absent s

/-- Insertions make the table if there is none, and lookups leave its place empty. -/
def step (call : α → γ → Params → β) (s : Session (Slot α)) :
    Step α γ → Outcome (Session (Slot α)) (Reply α β)
  | .insert pattern value =>
    let t := (s.current.getD .empty).insert pattern value
    .quiet (.table (some t.summary)) (s.set (some t))
  | .tryInsert pattern value =>
    let o := (s.current.getD .empty).tryInsert pattern value
    (o.map fun result => .inserted result (some o.state.summary)).mapState fun t => s.set (some t)
  | .table => .quiet (.table (s.current.map Table.summary)) s
  | .save => .quiet .done s.save
  | .swap => .quiet .done s.swap
  | .compileAll => (consult s none fun t => t.compileAll.map some).map .compiled
  | .find url => (consult s (.ok none) fun t => t.find url).map .found
  | .dispatch url context =>
    (consult s (.ok none) fun t => t.dispatch call url context).map .dispatched

/-- The replies to steps, each with its events, and the session after the last. -/
def run (call : α → γ → Params → β) (s : Session (Slot α)) :
    List (Step α γ) → List (Reply α β × List Event) × Session (Slot α)
  | [] => ([], s)
  | first :: steps =>
    let o := step call s first
    let others := run call o.state steps
    ((o.answer, o.events) :: others.1, others.2)

def Step.inserts : Step α γ → Bool
  | .insert .. => true
  | .tryInsert .. => true
  | _ => false

/-- What is seen of a step. The events of compiling are those of all tables together, so they are
left out. -/
def Step.shows : Step α γ → Reply α β × List Event → Reply α β × List Event
  | .compileAll, o => (o.1, [])
  | _, o => o

end Slot

namespace MethodTable

variable {α β γ : Type}

/-- The step as the table of a method takes it, if it concerns the method. -/
def Step.toSlot? (method : Method) : Step α γ → Option (Slot.Step α γ)
  | .insert other pattern value => if other = method then some (.insert pattern value) else none
  | .tryInsert other pattern value =>
    if other = method then some (.tryInsert pattern value) else none
  | .table other => if other = method then some .table else none
  | .save => some .save
  | .swap => some .swap
  | .compileAll => some .compileAll
  | .find other url => if other = method then some (.find url) else none
  | .dispatch other url context => if other = method then some (.dispatch url context) else none

/-- Whether a step inserts for a method. -/
def Step.insertsFor (method : Method) (st : Step α γ) : Bool :=
  (st.toSlot? method).any Slot.Step.inserts

/-- What a reply says of the table of a method. -/
def Reply.toSlot (method : Method) : Reply α β → Slot.Reply α β
  | .table t => .table t
  | .inserted result t => .inserted result t
  | .done => .done
  | .compiled _ each => .compiled (each.lookup method)
  | .found result => .found result
  | .dispatched result => .dispatched result

/-- What the steps of a run that concern a method show of its table. -/
def seen (method : Method) (steps : List (Step α γ)) (replies : List (Reply α β × List Event)) :
    List (Slot.Reply α β × List Event) :=
  (steps.zip replies).filterMap fun (st, reply, events) =>
    (st.toSlot? method).map fun own => own.shows (reply.toSlot method, events)

end MethodTable

/-- What the steps of a run show of a slot. -/
def Slot.seen {α β γ : Type} (steps : List (Slot.Step α γ))
    (replies : List (Slot.Reply α β × List Event)) : List (Slot.Reply α β × List Event) :=
  List.zipWith Step.shows steps replies

end PathRouting
