import PathRouting.Method
import PathRouting.Table.Basic

/-!
# One table for each method

A method has no table before the first insertion for it, which makes one even if the insertion
fails. Looking up under a method without a table finds nothing and reports nothing.
-/

namespace PathRouting

/-- The tables of the methods that have one, each method once. -/
structure MethodTable (α : Type) where
  tables : List (Method × Table α)

namespace MethodTable

variable {α β γ : Type}

def empty : MethodTable α :=
  ⟨[]⟩

def methods (m : MethodTable α) : List Method :=
  m.tables.map (·.1)

def table? (m : MethodTable α) (method : Method) : Option (Table α) :=
  m.tables.lookup method

/-- The tables with that of one method replaced, or added at the end. -/
def put (method : Method) (table : Table α) :
    List (Method × Table α) → List (Method × Table α)
  | [] => [(method, table)]
  | (other, old) :: rest =>
    if other = method then (method, table) :: rest else (other, old) :: put method table rest

def set (m : MethodTable α) (method : Method) (table : Table α) : MethodTable α :=
  ⟨put method table m.tables⟩

/-- The table of a method, empty if there is none yet. -/
def tableD (m : MethodTable α) (method : Method) : Table α :=
  (m.table? method).getD .empty

def insert (m : MethodTable α) (method : Method) (pattern : String) (value : α) :
    MethodTable α :=
  m.set method ((m.tableD method).insert pattern value)

def tryInsert (m : MethodTable α) (method : Method) (pattern : String) (value : α) :
    Outcome (MethodTable α) (Except CompileError Unit) :=
  ((m.tableD method).tryInsert pattern value).mapState (m.set method)

def ofList (routes : List (Method × String × α)) : MethodTable α :=
  routes.foldl (fun m (method, pattern, value) => m.insert method pattern value) empty

def find (m : MethodTable α) (method : Method) (url : String) :
    Outcome (MethodTable α) (Except CompileError (Option (Match α))) :=
  match m.table? method with
  | some t => (t.find url).mapState (m.set method)
  | none => .quiet (.ok none) m

def dispatch (call : α → γ → Params → β) (m : MethodTable α) (method : Method) (url : String)
    (context : γ) : Outcome (MethodTable α) (Except CompileError (Option β)) :=
  match m.table? method with
  | some t => (t.dispatch call url context).mapState (m.set method)
  | none => .quiet (.ok none) m

/-- Compiles the table of one method, if it has one. -/
def compileTable (m : MethodTable α) (method : Method) :
    Outcome (MethodTable α) (Except CompileError Unit) :=
  match m.table? method with
  | some t => t.compileAll.mapState (m.set method)
  | none => .quiet (.ok ()) m

/-- Compiles the tables of the methods in this order, up to the first that fails. -/
def compileAll (m : MethodTable α) :
    List Method → Outcome (MethodTable α) (Except CompileError Unit)
  | [] => .quiet (.ok ()) m
  | method :: order =>
    let first := m.compileTable method
    match first.answer with
    | .error _ => first
    | .ok () =>
      let others := first.state.compileAll order
      { others with events := first.events ++ others.events }

/-- Compiles each of the tables in this order, whether others fail or not. -/
def compileEach (m : MethodTable α) :
    List Method → Outcome (MethodTable α) (List (Method × Except CompileError Unit))
  | [] => .quiet [] m
  | method :: order =>
    let first := m.compileTable method
    let others := first.state.compileEach order
    ⟨(method, first.answer) :: others.answer, others.state, first.events ++ others.events⟩

end MethodTable

end PathRouting
