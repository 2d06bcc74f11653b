import PathRouting.Params.Basic

/-!
# Reading a parameter at a type

A value is read as an integer of a given width, as a truth value, as a single character, or as
text. An integer is an optional sign, a minus only where the type has negative numbers, and one or
more digits. It is read from the left, and the first problem is reported: a character that is no
digit, or the digit with which the number leaves the range of its type.
-/

namespace PathRouting

/-- The integers of `bits` binary digits, in two's complement if signed. -/
structure IntType where
  bits : Nat
  signed : Bool
  deriving DecidableEq, Repr

namespace IntType

def least (t : IntType) : Int :=
  if t.signed then -Nat.pow 2 (t.bits - 1) else 0

def greatest (t : IntType) : Int :=
  if t.signed then Nat.pow 2 (t.bits - 1) - 1 else Nat.pow 2 t.bits - 1

end IntType

inductive ReadError where
  | noDigits
  | invalidDigit
  | tooLarge
  | tooSmall
  | notBool
  | noChar
  | manyChars
  deriving DecidableEq, Repr

def ReadError.message : ReadError → String
  | noDigits => "cannot parse integer from empty string"
  | invalidDigit => "invalid digit found in string"
  | tooLarge => "number too large to fit in target type"
  | tooSmall => "number too small to fit in target type"
  | notBool => "provided string was not \x60true\x60 or \x60false\x60"
  | noChar => "cannot parse char from empty string"
  | manyChars => "too many characters in string"

namespace IntType

/-- One more digit at the end of `n`, away from zero on the side of its sign. -/
def push (t : IntType) (negative : Bool) (n : Int) (digit : Nat) : Except ReadError Int :=
  if negative then
    if 10 * n - digit < t.least then .error .tooSmall else .ok (10 * n - digit)
  else
    if t.greatest < 10 * n + digit then .error .tooLarge else .ok (10 * n + digit)

def readDigits (t : IntType) (negative : Bool) (n : Int) : List Char → Except ReadError Int
  | [] => .ok n
  | c :: text =>
    if c.isDigit then
      match t.push negative n (c.toNat - '0'.toNat) with
      | .ok n => t.readDigits negative n text
      | .error e => .error e
    else .error .invalidDigit

/-- Reads an integer. A sign that stands alone is no digit. -/
def read (t : IntType) : List Char → Except ReadError Int
  | [] => .error .noDigits
  | ['+'] | ['-'] => .error .invalidDigit
  | '+' :: text => t.readDigits false 0 text
  | '-' :: text => if t.signed then t.readDigits true 0 text else .error .invalidDigit
  | text => t.readDigits false 0 text

end IntType

/-- What a value can be read as. -/
inductive ValueType where
  | int (t : IntType)
  | bool
  | char
  | text
  deriving DecidableEq, Repr

inductive Value where
  | int (n : Int)
  | bool (b : Bool)
  | char (c : Char)
  | text (s : String)
  deriving DecidableEq, Repr

/-- Integers in plain decimal, all else as itself. -/
def Value.render : Value → String
  | int n => if n < 0 then "-" ++ Nat.repr n.natAbs else Nat.repr n.natAbs
  | bool true => "true"
  | bool false => "false"
  | char c => String.singleton c
  | text s => s

def ValueType.read (type : ValueType) (value : String) : Except ReadError Value :=
  match type with
  | int t => (t.read value.toList).map .int
  | bool =>
    if value = "true" then .ok (.bool true)
    else if value = "false" then .ok (.bool false)
    else .error .notBool
  | char =>
    match value.toList with
    | [] => .error .noChar
    | [c] => .ok (.char c)
    | _ => .error .manyChars
  | text => .ok (.text value)

/-- Reads the value of a name, if it is bound. -/
def Params.read? (p : Params) (name : String) (type : ValueType) :
    Option (Except ReadError Value) :=
  (p.get? name).map type.read

end PathRouting
