import PathRouting.Pattern.Basic
import PathRouting.Pattern.Captures

/-!
# Programs

A program is a pattern as a row of nodes, the last part first. A match passes the nodes from the
end of the row down, so that a point, the number of nodes still to pass, says how far it has come:
at the point `i + 1` it stands before the node number `i`, and at the point 0 it has passed all of
them. A group is a node above those of its body, with their number, and is left out by going down
so many nodes more. A group whose body can be empty needs no node: keeping it finds all that
leaving it out does. The nodes are put in one loop over the tokens; part by part they are the same
(`program_eq_programOnto`), and proofs go along the parts.

`choose` decides about the groups that start at a point, and `read` reads a text from a point where
none starts. Both say which choice comes first, and may try a choice many times over.
-/

namespace PathRouting

/-- What a value is made of. -/
inductive Extent where
  | segment
  | anything
  deriving DecidableEq, Repr

/-- What the value of a segment is made of. -/
def isSegmentChar (c : Char) : Bool :=
  c ≠ '/' && c ≠ '?'

def Extent.admits : Extent → Char → Bool
  | segment, c => isSegmentChar c
  | anything, _ => true

inductive Node where
  | literal (c : Char)
  | value (extent : Extent) (name : List Char)
  /-- The next `length` nodes can be left out. -/
  | optional (length : Nat)
  deriving DecidableEq, Repr

abbrev Program := Array Node

/-- A program that is built from the last token to the first: the nodes so far, whether the sequence
that is being built consists of groups alone so far, and for each group around it the number of nodes
behind the group, with the same about the sequence that the group stands in. -/
structure Program.Builder where
  nodes : Program
  groupsAlone : Bool
  outer : List (Nat × Bool)

namespace Program.Builder

def start : Builder := ⟨#[], true, []⟩

def putNode (b : Builder) (node : Node) : Builder :=
  { b with nodes := b.nodes.push node, groupsAlone := false }

/-- Puts the token in front. -/
def put (token : Token) (b : Builder) : Builder :=
  match token with
  | .literal c => b.putNode (.literal c)
  | .segment name => b.putNode (.value .segment name)
  | .wildcard => b.putNode (.value .anything Pattern.wildcardName)
  | .closing => ⟨b.nodes, true, (b.nodes.size, b.groupsAlone) :: b.outer⟩
  | .opening =>
    match b.outer with
    | [] => b
    | (size, groupsAlone) :: outer =>
      if b.groupsAlone then ⟨b.nodes, groupsAlone, outer⟩
      else ⟨b.nodes.push (.optional (b.nodes.size - size)), groupsAlone, outer⟩

end Program.Builder

def Pattern.program (p : Pattern) : Program :=
  (p.tokens.foldr Program.Builder.put .start).nodes

/-- Whether a pattern consists of groups alone, so that all of it can be left out. -/
def Pattern.canBeEmpty : Pattern → Bool
  | empty => true
  | group before _ => before.canBeEmpty
  | _ => false

/-- Puts the nodes of a pattern on those of what follows, part by part. This is what the nodes are;
`Builder` puts them without going down into the bodies. -/
def Pattern.programOnto : Pattern → Program → Program
  | empty, after => after
  | literal before c, after => before.programOnto (after.push (.literal c))
  | segment before name, after => before.programOnto (after.push (.value .segment name))
  | wildcard before, after => before.programOnto (after.push (.value .anything wildcardName))
  | group before body, after =>
    let size := after.size
    let kept := body.programOnto after
    before.programOnto
      (if body.canBeEmpty then kept else kept.push (.optional (kept.size - size)))

/-- The tokens of a pattern put the nodes of its parts. -/
theorem Program.Builder.foldr_put_tokens (p : Pattern) (b : Builder) :
    p.tokens.foldr put b = ⟨p.programOnto b.nodes, b.groupsAlone && p.canBeEmpty, b.outer⟩ := by
  induction p generalizing b with
  | empty => simp [Pattern.programOnto, Pattern.canBeEmpty]
  | literal before c ih =>
    simp [ih, put, putNode, Pattern.programOnto, Pattern.canBeEmpty]
  | segment before name ih =>
    simp [ih, put, putNode, Pattern.programOnto, Pattern.canBeEmpty]
  | wildcard before ih =>
    simp [ih, put, putNode, Pattern.programOnto, Pattern.canBeEmpty]
  | group before body ihb ih =>
    have hb : (Token.opening :: (body.tokens ++ [.closing])).foldr put b =
        ⟨if body.canBeEmpty then body.programOnto b.nodes
          else (body.programOnto b.nodes).push
            (.optional ((body.programOnto b.nodes).size - b.nodes.size)),
          b.groupsAlone, b.outer⟩ := by
      rw [List.foldr_cons, List.foldr_append, List.foldr_cons, List.foldr_nil, put, ih]
      cases body.canBeEmpty <;> simp [put]
    rw [Pattern.tokens_group, List.foldr_append, hb, ihb, Pattern.programOnto, Pattern.canBeEmpty]

theorem Pattern.program_eq_programOnto (p : Pattern) : p.program = p.programOnto #[] := by
  rw [program, Program.Builder.foldr_put_tokens, Program.Builder.start]

/-- What is read from a place of the url on. -/
structure Reading where
  /-- The point of the first character that is read, or 0 if there is none. -/
  point : Nat
  captures : Captures
  deriving DecidableEq, Repr

/-- The reading at the end of a path: what is left has to be a query. -/
def Reading.ofRest (text : List Char) : Option Reading :=
  (Captures.ofRest text).map fun captures => ⟨0, captures⟩

namespace Program

/-- The node that stands at a point. -/
def node? (program : Program) : Nat → Option Node
  | 0 => none
  | i + 1 => program[i]?

/-- The first answer at a point, where a group is kept before it is left out. -/
def choose {α : Type} (program : Program) (leaf : Nat → Option α) : Nat → Option α
  | 0 => leaf 0
  | i + 1 =>
    match program[i]? with
    | some (.optional length) =>
      (choose program leaf i).or (choose program leaf (i - length))
    | _ => leaf (i + 1)

theorem choose_succ_of_optional {α : Type} {program : Program} {leaf : Nat → Option α}
    {i length : Nat} (h : program[i]? = some (.optional length)) :
    program.choose leaf (i + 1) =
      (program.choose leaf i).or (program.choose leaf (i - length)) := by
  rw [choose, h]

theorem choose_succ {α : Type} {program : Program} {leaf : Nat → Option α} {i : Nat}
    (h : ∀ length, program[i]? ≠ some (.optional length)) :
    program.choose leaf (i + 1) = leaf (i + 1) := by
  rw [choose]
  split
  · next length hl => exact absurd hl (h length)
  · rfl

/-- The points at which a match goes on when a character is read at a point, the best first: a
value goes on with more of it before it ends. -/
def exits (program : Program) (c : Char) : Nat → List Nat
  | 0 => []
  | i + 1 =>
    match program[i]? with
    | some (.literal x) => if c = x then [i] else []
    | some (.value extent _) => if extent.admits c then [i + 1, i] else []
    | _ => []

/-- Passes the literal nodes from a point on. It fails where a text goes on differently. -/
def skip (program : Program) : Nat → List Char → Option (Nat × List Char)
  | 0, text => some (0, text)
  | i + 1, text =>
    match program[i]? with
    | some (.literal x) =>
      match text with
      | [] => none
      | c :: text => if c = x then program.skip i text else none
    | _ => some (i + 1, text)

/-- Puts the first character of a text before a reading. In a value it makes the stretch longer
that starts behind it, or starts one. -/
def extend (program : Program) (point : Nat) (text : List Char) (r : Reading) : Reading where
  point := point
  captures :=
    match program.node? point with
    | some (.value _ name) =>
      if r.point = point then r.captures.stretch text 1 else r.captures.bindFirst name ⟨text, 1⟩
    | _ => r.captures

/-- The first reading of a text at a point where no group starts. -/
def read (program : Program) : List Char → Nat → Option Reading
  | text, 0 => Reading.ofRest text
  | [], _ + 1 => none
  | c :: text, i + 1 =>
    ((program.exits c (i + 1)).findSome? (program.choose (read program text))).map
      (program.extend (i + 1) (c :: text))

end Program

end PathRouting
