import PathRouting.Pattern.Basic

/-!
# The limits of a pattern

A pattern is refused when its rule nests too deeply or takes too much room, in this order.

The depth of a rule: a sequence of two or more parts is one level deeper than what holds it, and
the rule itself always counts as such a sequence. A segment and a wildcard reach four levels below
their sequence, and what a group holds stands two levels below the group.

The room of a rule is what a machine that accepts it takes, in bytes: a fixed part, and so much
for each byte of literal text, each parameter and each group, and more for a group that is empty.
-/

namespace PathRouting

/-- Why a pattern is refused although its text is well formed. -/
inductive Refusal where
  | tooDeep
  | tooLarge
  deriving DecidableEq, Repr

namespace Pattern

/-- The level of a sequence of parts that stands at level `level`. -/
def sequenceLevel (level : Nat) : Pattern → Nat
  | empty => level
  | literal empty _ | segment empty _ | wildcard empty | group empty _ => level
  | _ => level + 1

def maxDepth : Nat := 250

/-- Whether a sequence at level `level` stays within the depth. A group is not entered where what it
holds is too deep already. -/
def staysWithin (level : Nat) : Pattern → Bool
  | empty => level ≤ maxDepth
  | literal before _ => before.staysWithin level
  | segment before _ | wildcard before => level + 4 ≤ maxDepth && before.staysWithin level
  | group before body =>
    level + 2 ≤ maxDepth && body.staysWithin (body.sequenceLevel (level + 2)) &&
      before.staysWithin level

end Pattern

/-- The room that tokens take, and `room` more. -/
def Token.roomOnto : List Token → Nat → Nat
  | [], room => room
  | literal c :: tokens, room => roomOnto tokens (32 * c.utf8Size + room)
  | segment _ :: tokens, room => roomOnto tokens (1076 + room)
  | wildcard :: tokens, room => roomOnto tokens (1004 + room)
  | opening :: closing :: tokens, room => roomOnto tokens (104 + room)
  | opening :: tokens, room => roomOnto tokens (72 + room)
  | closing :: tokens, room => roomOnto tokens room

namespace Pattern

def room (p : Pattern) : Nat :=
  Token.roomOnto p.tokens 1236

/-- Ten mebibytes. -/
def maxRoom : Nat := 10 * 1024 * 1024

def refusal? (p : Pattern) : Option Refusal :=
  if !p.staysWithin 1 then some .tooDeep
  else if maxRoom < p.room then some .tooLarge
  else none

end Pattern

end PathRouting
