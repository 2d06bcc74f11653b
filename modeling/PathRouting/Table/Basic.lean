import PathRouting.Table.Route
import Std.Data.TreeMap

/-!
# Route tables

A table holds routes in the order in which their patterns were first inserted, each pattern once,
and an index from patterns to positions. A lookup tries the routes in this order and the first one
that matches wins. Inserting a pattern that is present replaces its value, and keeps its position
and what was compiled.
-/

namespace PathRouting

structure Table (α : Type) where
  routes : Array (Route α)
  index : Std.TreeMap String Nat

/-- The winning route of a lookup, with what the url binds. -/
structure Match (α : Type) where
  value : α
  url : String
  pattern : String
  params : Params
  query : Option String
  deriving DecidableEq, Repr

namespace Table

variable {α β γ : Type}

def empty : Table α :=
  ⟨#[], ∅⟩

def size (t : Table α) : Nat :=
  t.routes.size

def isEmpty (t : Table α) : Bool :=
  t.routes.isEmpty

/-- The patterns in order of priority. -/
def patterns (t : Table α) : List String :=
  t.routes.toList.map Route.pattern

/-- Puts a value at a pattern, with the compiled pattern if there is a new one. -/
def put (t : Table α) (pattern : String) (value : α) (compiled : Option Compiled) : Table α :=
  match t with
  | ⟨routes, index⟩ =>
    let position := routes.size
    match index[pattern]? with
    | some i =>
      ⟨routes.modify i fun r => { r with value, compiled := compiled.or r.compiled }, index⟩
    | none => ⟨routes.push { pattern, value, compiled }, index.insert pattern position⟩

def insert (t : Table α) (pattern : String) (value : α) : Table α :=
  t.put pattern value none

/-- Compiles the pattern first, and inserts nothing if that fails. -/
def tryInsert (t : Table α) (pattern : String) (value : α) :
    Outcome (Table α) (Except CompileError Unit) :=
  match attempt pattern with
  | (.ok c, event) => ⟨.ok (), t.put pattern value (some c), [event]⟩
  | (.error e, event) => ⟨.error e, t, [event]⟩

def extend (t : Table α) (routes : List (String × α)) : Table α :=
  routes.foldl (fun t (pattern, value) => t.insert pattern value) t

/-- A table of given routes is the empty table with the routes inserted one after the other. -/
def ofList (routes : List (String × α)) : Table α :=
  empty.extend routes

/-- Scans the routes, and keeps what was compiled on the way. -/
def scan (t : Table α) (probe : Route α → Compiled → Option β) :
    Outcome (Table α) (Except CompileError (Option β)) :=
  (Route.scan probe t.routes.toList).mapState fun routes => { t with routes := routes.toArray }

/-- Compiles the patterns that are not compiled yet, up to the first that fails. -/
def compileAll (t : Table α) : Outcome (Table α) (Except CompileError Unit) :=
  (t.scan fun _ _ => (none : Option Unit)).map fun answer => answer.map fun _ => ()

/-- What a route answers for a url, whose text is given beside it. -/
def matchOf (url : String) (text : List Char) (r : Route α) (c : Compiled) : Option (Match α) :=
  (c.extract text).map fun (params, query) =>
    { value := r.value, url, pattern := r.pattern, params, query }

/-- The event that closes a lookup. A lookup that fails has none. -/
def closing (url : String) : Except CompileError (Option (Match α)) → List Event
  | .error _ => []
  | .ok (some m) => [.matched url m.pattern]
  | .ok none => [.unmatched url]

/-- The first route that matches. -/
def find (t : Table α) (url : String) :
    Outcome (Table α) (Except CompileError (Option (Match α))) :=
  let found := t.scan (matchOf url url.toList)
  { found with events := found.events ++ closing url found.answer }

/-- Calls the value of the first route that matches with the context and the parameters. -/
def dispatch (call : α → γ → Params → β) (t : Table α) (url : String) (context : γ) :
    Outcome (Table α) (Except CompileError (Option β)) :=
  (t.find url).map fun answer =>
    answer.map fun found => found.map fun m => call m.value context m.params

end Table

end PathRouting
