import PathRouting.Session
import PathRouting.Table.Basic

/-!
# Runs of a table

A step is one operation on a table or on the copy that is saved beside it. A run takes the steps
one after the other and collects the replies, each with its events.
-/

namespace PathRouting.Table

/-- What is seen of a table from outside. -/
structure Summary where
  size : Nat
  isEmpty : Bool
  patterns : List String
  deriving DecidableEq, Repr

inductive Step (α γ : Type) where
  | insert (pattern : String) (value : α)
  | tryInsert (pattern : String) (value : α)
  | extend (routes : List (String × α))
  | clear
  | save
  | swap
  | compileAll
  | find (url : String)
  | dispatch (url : String) (context : γ)

inductive Reply (α β : Type) where
  | summary (table : Summary)
  | inserted (result : Except CompileError Unit) (table : Summary)
  | compiled (result : Except CompileError Unit)
  | found (result : Except CompileError (Option (Match α)))
  | dispatched (result : Except CompileError (Option β))

variable {α β γ : Type}

def summary (t : Table α) : Summary :=
  ⟨t.size, t.isEmpty, t.patterns⟩

/-- The reply to a step that only shows the table it leaves. -/
def shown (s : Session (Table α)) : Outcome (Session (Table α)) (Reply α β) :=
  .quiet (.summary s.current.summary) s

def step (call : α → γ → Params → β) (s : Session (Table α)) :
    Step α γ → Outcome (Session (Table α)) (Reply α β)
  | .insert pattern value => shown (s.set (s.current.insert pattern value))
  | .tryInsert pattern value =>
    let o := s.current.tryInsert pattern value
    (o.map fun result => .inserted result o.state.summary).mapState s.set
  | .extend routes => shown (s.set (s.current.extend routes))
  | .clear => shown (s.set empty)
  | .save => shown s.save
  | .swap => shown s.swap
  | .compileAll => (s.current.compileAll.map .compiled).mapState s.set
  | .find url => ((s.current.find url).map .found).mapState s.set
  | .dispatch url context => ((s.current.dispatch call url context).map .dispatched).mapState s.set

/-- The replies to steps, each with its events, and the session after the last. -/
def run (call : α → γ → Params → β) (s : Session (Table α)) :
    List (Step α γ) → List (Reply α β × List Event) × Session (Table α)
  | [] => ([], s)
  | first :: steps =>
    let o := step call s first
    let others := run call o.state steps
    ((o.answer, o.events) :: others.1, others.2)

end PathRouting.Table
