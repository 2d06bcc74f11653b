import PathRouting.Pattern.Limit
import PathRouting.Text.Quoted

/-!
# Why a pattern does not compile

An error names the cause and carries the whole pattern. A fault of the text comes before a refusal
for its size, which only a pattern without faults can meet.
-/

namespace PathRouting

inductive Cause where
  | fault (fault : Fault)
  | refusal (refusal : Refusal)
  deriving DecidableEq, Repr

structure CompileError where
  pattern : String
  cause : Cause
  deriving DecidableEq, Repr

namespace CompileError

/-- The kind of an error in words; the two refusals share theirs. -/
def summary (e : CompileError) : String :=
  match e.cause with
  | .fault .unbalancedGroup => "unbalanced parentheses"
  | .fault .multipleWildcards => "a pattern can not hold more than one wildcard"
  | .refusal _ => "failed to build matching rule"

def message (e : CompileError) : String :=
  e.summary ++ ": pattern = " ++ String.ofList (Text.quoted e.pattern.toList)

end CompileError

end PathRouting
