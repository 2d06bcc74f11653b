import PathRouting.Event
import PathRouting.Params.Basic
import PathRouting.Pattern.Matching
import PathRouting.Pattern.Rule

/-!
# Compiled patterns

Compiling reads the text of a pattern and checks its limits. Every attempt reports one event, a
success as well as a failure. A compiled pattern keeps its text, its parts and its program; the
rule and the names are computed from the parts, and the matches by the program.
-/

namespace PathRouting

structure Compiled where
  source : String
  pattern : Pattern
  program : Program
  program_eq : program = pattern.program
  deriving DecidableEq, Repr

namespace Compiled

def ofPattern (source : String) (p : Pattern) : Compiled :=
  ⟨source, p, p.program, rfl⟩

def rule (c : Compiled) : String :=
  String.ofList c.pattern.rule

def names (c : Compiled) : List String :=
  c.pattern.names.map String.ofList

/-- The parameters that the text of a url binds and its query, if it matches. -/
def extract (c : Compiled) (url : List Char) : Option (Params × Option String) :=
  (c.program.captures url).map fun r =>
    (Params.ofBindings r.bindings, r.query.map String.ofList)

def captures (c : Compiled) (url : String) : Option Params :=
  (c.extract url.toList).map (·.1)

def isMatch (c : Compiled) (url : String) : Bool :=
  c.program.isMatch url.toList

end Compiled

/-- Compiles a pattern, with the event that reports it. -/
def attempt (source : String) : Except CompileError Compiled × Event :=
  match Pattern.ofText source.toList with
  | .error fault =>
    let e : CompileError := ⟨source, .fault fault⟩
    (.error e, .malformed e)
  | .ok p =>
    let rule := String.ofList p.rule
    match p.refusal? with
    | some refusal => (.error ⟨source, .refusal refusal⟩, .refused source rule)
    | none => (.ok (.ofPattern source p), .compiled source rule p.names.length)

def compile (source : String) : Except CompileError Compiled :=
  (attempt source).1

end PathRouting
