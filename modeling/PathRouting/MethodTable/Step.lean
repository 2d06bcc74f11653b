import PathRouting.MethodTable.Basic
import PathRouting.Table.Step

/-!
# Runs of the tables of methods

The steps are those of a single table, each for a method, or for all methods at once where tables
are saved, exchanged or compiled.
-/

namespace PathRouting.MethodTable

inductive Step (α γ : Type) where
  | insert (method : Method) (pattern : String) (value : α)
  | tryInsert (method : Method) (pattern : String) (value : α)
  | table (method : Method)
  | save
  | swap
  | compileAll
  | find (method : Method) (url : String)
  | dispatch (method : Method) (url : String) (context : γ)

inductive Reply (α β : Type) where
  | table (table : Option Table.Summary)
  | inserted (result : Except CompileError Unit) (table : Option Table.Summary)
  | done
  | compiled (all : Except CompileError Unit)
    (each : List (Method × Except CompileError Unit))
  | found (result : Except CompileError (Option (Match α)))
  | dispatched (result : Except CompileError (Option β))

variable {α β γ : Type}

def summary? (m : MethodTable α) (method : Method) : Option Table.Summary :=
  (m.table? method).map Table.summary

def step (call : α → γ → Params → β) (s : Session (MethodTable α)) :
    Step α γ → Outcome (Session (MethodTable α)) (Reply α β)
  | .insert method pattern value =>
    let m := s.current.insert method pattern value
    .quiet (.table (m.summary? method)) (s.set m)
  | .tryInsert method pattern value =>
    let o := s.current.tryInsert method pattern value
    (o.map fun result => .inserted result (o.state.summary? method)).mapState s.set
  | .table method => .quiet (.table (s.current.summary? method)) s
  | .save => .quiet .done s.save
  | .swap => .quiet .done s.swap
  | .compileAll =>
    let all := s.current.compileAll s.current.methods
    let each := all.state.compileEach all.state.methods
    ⟨.compiled all.answer each.answer, s.set each.state, all.events ++ each.events⟩
  | .find method url => ((s.current.find method url).map .found).mapState s.set
  | .dispatch method url context =>
    ((s.current.dispatch call method url context).map .dispatched).mapState s.set

/-- The replies to steps, each with its events, and the session after the last. -/
def run (call : α → γ → Params → β) (s : Session (MethodTable α)) :
    List (Step α γ) → List (Reply α β × List Event) × Session (MethodTable α)
  | [] => ([], s)
  | first :: steps =>
    let o := step call s first
    let others := run call o.state steps
    ((o.answer, o.events) :: others.1, others.2)

end PathRouting.MethodTable
