import PathRouting.Pattern.Token

/-!
# Patterns

A pattern is a sequence of parts: literal characters, named segments, a wildcard, and groups that
hold a pattern themselves. A sequence is built at its end, each part after those before it, as the
parts are read.

`Pattern.parse` reads tokens. Each group that is open keeps the parts before it on a stack, the
innermost first. A closing parenthesis with no open group and a second wildcard are faults where
they stand; a group that is still open is a fault at the end. `Pattern.tokens` lists the tokens again,
in one loop however deep the groups nest, and what is written of a pattern is written of its tokens.
-/

namespace PathRouting

inductive Pattern where
  | empty
  | literal (before : Pattern) (c : Char)
  | segment (before : Pattern) (name : List Char)
  | wildcard (before : Pattern)
  | group (before body : Pattern)
  deriving DecidableEq, Repr

/-- What is wrong with the text of a pattern. -/
inductive Fault where
  | unbalancedGroup
  | multipleWildcards
  deriving DecidableEq, Repr

namespace Pattern

/-- What has been read of a pattern: the parts before each open group, the innermost group first,
the parts after the last open one, and whether there was a wildcard. -/
structure Draft where
  outer : List Pattern
  current : Pattern
  starred : Bool

def Draft.start : Draft := ⟨[], empty, false⟩

/-- Takes one more token. -/
def Draft.push (p : Draft) : Token → Except Fault Draft
  | .literal c => .ok { p with current := p.current.literal c }
  | .segment name => .ok { p with current := p.current.segment name }
  | .wildcard =>
    if p.starred then .error .multipleWildcards
    else .ok { p with current := p.current.wildcard, starred := true }
  | .opening => .ok { p with outer := p.current :: p.outer, current := empty }
  | .closing =>
    match p.outer with
    | [] => .error .unbalancedGroup
    | before :: outer => .ok { p with outer, current := before.group p.current }

def Draft.pushAll (p : Draft) : List Token → Except Fault Draft
  | [] => .ok p
  | token :: tokens =>
    match p.push token with
    | .ok p => p.pushAll tokens
    | .error fault => .error fault

/-- The pattern that was read, if no group is open. -/
def Draft.close (p : Draft) : Except Fault Pattern :=
  match p.outer with
  | [] => .ok p.current
  | _ :: _ => .error .unbalancedGroup

def parse (tokens : List Token) : Except Fault Pattern :=
  match Draft.start.pushAll tokens with
  | .ok p => p.close
  | .error fault => .error fault

/-- Reads the text of a pattern. -/
def ofText (text : List Char) : Except Fault Pattern :=
  parse (Token.scan text)

/-- The name that a wildcard binds. -/
def wildcardName : List Char := ['p', 'a', 't', 'h']

/-- How many steps a walk over a pattern takes. -/
def size : Pattern → Nat
  | empty => 1
  | literal before _ | segment before _ | wildcard before => before.size + 1
  | group before body => before.size + body.size + 1

def totalSize : List Pattern → Nat
  | [] => 0
  | p :: patterns => p.size + totalSize patterns

/-- The tokens of a pattern, before those of what follows. The walk goes from the last part to the
first. What stands before the groups that it is in waits in `outer`, the innermost group first, so
that it takes no more stack where groups nest deeply. -/
@[semireducible]
def tokensOnto : Pattern → List Pattern → List Token → List Token
  | empty, [], after => after
  | empty, before :: outer, after => before.tokensOnto outer (.opening :: after)
  | literal before c, outer, after => before.tokensOnto outer (.literal c :: after)
  | segment before name, outer, after => before.tokensOnto outer (.segment name :: after)
  | wildcard before, outer, after => before.tokensOnto outer (.wildcard :: after)
  | group before body, outer, after => body.tokensOnto (before :: outer) (.closing :: after)
termination_by p outer => p.size + totalSize outer
decreasing_by all_goals simp only [size, totalSize]; omega

def tokens (p : Pattern) : List Token :=
  p.tokensOnto [] []

end Pattern

namespace Token

/-- The name that a token binds. -/
@[simp] def name? : Token → Option (List Char)
  | segment name => some name
  | wildcard => some Pattern.wildcardName
  | _ => none

/-- The names that tokens bind, in their order. -/
def names (tokens : List Token) : List (List Char) :=
  tokens.filterMap name?

@[simp] theorem names_nil : names [] = [] := rfl

@[simp] theorem names_cons (token : Token) (tokens : List Token) :
    names (token :: tokens) = token.name?.toList ++ names tokens := by
  rw [names, List.filterMap_cons]
  cases token.name? <;> rfl

@[simp] theorem names_append (s t : List Token) : names (s ++ t) = names s ++ names t :=
  List.filterMap_append

end Token

namespace Pattern

/-- The names of the parameters, in pattern order. -/
def names (p : Pattern) : List (List Char) :=
  Token.names p.tokens

/-- The walk gets to the tokens of a pattern before it goes on with what waits. -/
theorem tokensOnto_eq (p : Pattern) (outer : List Pattern) (after : List Token) :
    p.tokensOnto outer after = empty.tokensOnto outer (p.tokens ++ after) := by
  unfold tokens
  induction p generalizing outer after with
  | empty => simp [tokensOnto]
  | literal before c ih => rw [tokensOnto, ih, tokensOnto, ih [] [_]]; simp [tokensOnto]
  | segment before name ih => rw [tokensOnto, ih, tokensOnto, ih [] [_]]; simp [tokensOnto]
  | wildcard before ih => rw [tokensOnto, ih, tokensOnto, ih [] [_]]; simp [tokensOnto]
  | group before body ihb ih =>
    rw [tokensOnto, ih, tokensOnto, ihb, tokensOnto, ih [before], tokensOnto, ihb [] (_ :: _)]
    simp [tokensOnto]

@[simp] theorem tokens_empty : empty.tokens = [] := by
  rw [tokens, tokensOnto]

@[simp] theorem tokens_literal (before : Pattern) (c : Char) :
    (before.literal c).tokens = before.tokens ++ [.literal c] := by
  rw [tokens, tokensOnto, tokensOnto_eq, tokensOnto]

@[simp] theorem tokens_segment (before : Pattern) (name : List Char) :
    (before.segment name).tokens = before.tokens ++ [.segment name] := by
  rw [tokens, tokensOnto, tokensOnto_eq, tokensOnto]

@[simp] theorem tokens_wildcard (before : Pattern) :
    before.wildcard.tokens = before.tokens ++ [.wildcard] := by
  rw [tokens, tokensOnto, tokensOnto_eq, tokensOnto]

@[simp] theorem tokens_group (before body : Pattern) :
    (before.group body).tokens = before.tokens ++ .opening :: (body.tokens ++ [.closing]) := by
  rw [tokens, tokensOnto, tokensOnto_eq, tokensOnto, tokensOnto_eq, tokensOnto]

@[simp] theorem names_empty : empty.names = [] := by
  simp [names]

@[simp] theorem names_literal (before : Pattern) (c : Char) :
    (before.literal c).names = before.names := by
  simp [names]

@[simp] theorem names_segment (before : Pattern) (name : List Char) :
    (before.segment name).names = before.names ++ [name] := by
  simp [names]

@[simp] theorem names_wildcard (before : Pattern) :
    before.wildcard.names = before.names ++ [wildcardName] := by
  simp [names]

@[simp] theorem names_group (before body : Pattern) :
    (before.group body).names = before.names ++ body.names := by
  simp [names]

theorem Draft.pushAll_append (p : Draft) (s t : List Token) :
    p.pushAll (s ++ t) =
      match p.pushAll s with
      | .ok q => q.pushAll t
      | .error fault => .error fault := by
  induction s generalizing p with
  | nil => rfl
  | cons token s ih =>
    simp only [List.cons_append, pushAll]
    cases p.push token with
    | ok q => exact ih q
    | error fault => rfl

end Pattern

end PathRouting
