/-!
# Request methods

The name of a method is one or more method characters, and its case counts.
-/

namespace PathRouting

/-- Letters and digits of ASCII, and ten marks. -/
def isMethodChar (c : Char) : Bool :=
  c.isAlphanum || c ∈ ['!', '*', '+', '-', '.', '^', '_', '\x60', '|', '~']

def isMethodName (name : String) : Bool :=
  !name.isEmpty && name.toList.all isMethodChar

structure Method where
  name : String
  isMethodName_name : isMethodName name = true
  deriving DecidableEq

/-- The one error of reading a method. -/
inductive MethodError where
  | invalidMethod
  deriving DecidableEq, Repr

def MethodError.message : MethodError → String
  | invalidMethod => "invalid HTTP method"

def Method.ofString (name : String) : Except MethodError Method :=
  if h : isMethodName name = true then .ok ⟨name, h⟩ else .error .invalidMethod

end PathRouting
