import PathRouting.Compiled
import PathRouting.Outcome

/-!
# Routes and scans

A route is a pattern with a value. Its pattern is compiled when it is first needed, and what was
compiled is kept; a failure is not kept, so it is reported again each time.

A scan goes through routes in order and asks a probe about each compiled pattern. It ends at the
first pattern that does not compile and at the first answer of the probe, and leaves every route
behind that end as it was.
-/

namespace PathRouting

structure Route (α : Type) where
  pattern : String
  value : α
  compiled : Option Compiled

namespace Route

variable {α β : Type}

/-- The compiled pattern, and the route that keeps it. -/
def force (r : Route α) : Outcome (Route α) (Except CompileError Compiled) :=
  match r.compiled with
  | some c => .quiet (.ok c) r
  | none =>
    match attempt r.pattern with
    | (.ok c, event) => ⟨.ok c, { r with compiled := some c }, [event]⟩
    | (.error e, event) => ⟨.error e, r, [event]⟩

def scan (probe : Route α → Compiled → Option β) :
    List (Route α) → Outcome (List (Route α)) (Except CompileError (Option β))
  | [] => .quiet (.ok none) []
  | r :: routes =>
    let first := r.force
    match first.answer with
    | .error e => ⟨.error e, first.state :: routes, first.events⟩
    | .ok c =>
      match probe r c with
      | some b => ⟨.ok (some b), first.state :: routes, first.events⟩
      | none =>
        let others := scan probe routes
        ⟨others.answer, first.state :: others.state, first.events ++ others.events⟩

end Route

end PathRouting
