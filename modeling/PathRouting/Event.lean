import PathRouting.CompileError

/-!
# Events

What compiling and looking up report while they work. The report of a refusal has its kind in the
message and the rule that was refused; the words in which an engine explains the refusal are its own
and are left out.
-/

namespace PathRouting

inductive Event where
  | compiled (pattern rule : String) (params : Nat)
  | malformed (error : CompileError)
  | refused (pattern rule : String)
  | matched (url pattern : String)
  | unmatched (url : String)
  deriving DecidableEq, Repr

def Event.message : Event → String
  | compiled .. => "compiled pattern"
  | malformed _ => "failed to compile pattern"
  | refused .. => "failed to build matching rule"
  | matched .. => "route matched"
  | unmatched _ => "no route matched"

end PathRouting
