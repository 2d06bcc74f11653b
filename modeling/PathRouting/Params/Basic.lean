import PathRouting.Pattern.Captures
import Std.Data.TreeMap

/-!
# Parameters

The parameters of a match are pairs of a name and a value, in pattern order. A name may be bound
more than once; then the rightmost binding is the one that is read, and the map holds.
-/

namespace PathRouting

structure Params where
  pairs : List (String × String)
  deriving DecidableEq, Repr

namespace Params

def ofBindings (bindings : List Binding) : Params :=
  ⟨bindings.map fun b => (String.ofList b.name, String.ofList b.span.text)⟩

def size (p : Params) : Nat :=
  p.pairs.length

def isEmpty (p : Params) : Bool :=
  p.pairs.isEmpty

/-- The value of the rightmost pair with this name. -/
def get? (p : Params) (name : String) : Option String :=
  p.pairs.reverse.lookup name

def contains (p : Params) (name : String) : Bool :=
  p.pairs.any fun (key, _) => key == name

/-- Goes through the pairs in order. -/
def iter (p : Params) :=
  p.pairs.iter

/-- Each name with the value of its rightmost pair. -/
def toMap (p : Params) : Std.TreeMap String String :=
  p.pairs.foldl (fun map (key, value) => map.insert key value) ∅

end Params

end PathRouting
