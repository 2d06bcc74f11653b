import PathRouting.Compiled

/-!
# Reading regular expressions

A regular expression is read in two steps, its characters as symbols (`Symbol.lex?`) and the symbols
as a tree (`Regex.build?`). A backslash makes the next character a literal. Every other character
that can mean something has to stand where it does mean that, or nothing is read: parentheses are
balanced, a group that captures nothing is optional, and nothing but a class is repeated.
-/

namespace PathRouting

/-- What stands in a class: a character, `\s` or `\S`. -/
inductive ClassItem where
  | char (c : Char)
  | space
  | notSpace
  deriving DecidableEq, Repr

/-- A class of characters, or of those that are not in it. -/
structure CharClass where
  negated : Bool
  items : List ClassItem
  deriving DecidableEq, Repr

def CharClass.add (k : CharClass) (item : ClassItem) : CharClass :=
  { k with items := k.items ++ [item] }

inductive Symbol where
  | char (c : Char)
  | kind (k : CharClass)
  | capturing
  | grouping
  | closing
  | question
  | plus
  | star
  | caret
  | dollar
  deriving DecidableEq, Repr

namespace Symbol

/-- The symbol that a character is outside a class. Alternatives, counted repetitions and the
character that stands for all others are not read. -/
def ofChar? : Char → Option Symbol
  | '(' => some capturing
  | ')' => some closing
  | '?' => some question
  | '+' => some plus
  | '*' => some star
  | '^' => some caret
  | '$' => some dollar
  | '\\' | '[' | ']' | '.' | '|' | '\x7b' | '\x7d' => none
  | c => some (char c)

/-- Reads symbols, with what has been read of a class if the text starts in one. Behind a backslash
a letter or a digit would be no literal. -/
def lex? : Option CharClass → List Char → Option (List Symbol)
  | none, [] => some []
  | none, '\\' :: c :: text => if c.isAlphanum then none else (lex? none text).map (char c :: ·)
  | none, '(' :: '?' :: ':' :: text => (lex? none text).map (grouping :: ·)
  | none, '(' :: '?' :: _ => none
  | none, '[' :: '^' :: text => lex? (some ⟨true, []⟩) text
  | none, '[' :: text => lex? (some ⟨false, []⟩) text
  | none, c :: text => (ofChar? c).bind fun symbol => (lex? none text).map (symbol :: ·)
  | some _, [] => none
  | some k, ']' :: text => if k.items.isEmpty then none else (lex? none text).map (kind k :: ·)
  | some k, '\\' :: 's' :: text => lex? (some (k.add .space)) text
  | some k, '\\' :: 'S' :: text => lex? (some (k.add .notSpace)) text
  | some k, c :: text =>
    if c ∈ ['\\', '[', '^', '-', '&', '~'] then none else lex? (some (k.add (.char c))) text

end Symbol

/-- A regular expression. Like a pattern it is a sequence that is built at its end. -/
inductive Regex where
  | empty
  | start (before : Regex)
  | finish (before : Regex)
  | char (before : Regex) (c : Char)
  /-- At least so many characters of a class. -/
  | many (before : Regex) (k : CharClass) (least : Nat)
  | capture (before body : Regex)
  | optional (before body : Regex)
  deriving DecidableEq, Repr

namespace Regex

/-- Puts symbols behind what has been read. Each group that is open keeps the expression before it,
and whether it captures, the innermost first. -/
def build? : List (Bool × Regex) → Regex → List Symbol → Option Regex
  | [], r, [] => some r
  | _ :: _, _, [] => none
  | outer, r, .char c :: symbols => build? outer (r.char c) symbols
  | outer, r, .caret :: symbols => build? outer r.start symbols
  | outer, r, .dollar :: symbols => build? outer r.finish symbols
  | outer, r, .kind k :: .plus :: symbols => build? outer (r.many k 1) symbols
  | outer, r, .kind k :: .star :: symbols => build? outer (r.many k 0) symbols
  | outer, r, .capturing :: symbols => build? ((true, r) :: outer) empty symbols
  | outer, r, .grouping :: symbols => build? ((false, r) :: outer) empty symbols
  | (true, before) :: outer, r, .closing :: symbols => build? outer (before.capture r) symbols
  | (false, before) :: outer, r, .closing :: .question :: symbols =>
    build? outer (before.optional r) symbols
  | _, _, _ => none

/-- Reads a regular expression. -/
def read? (text : List Char) : Option Regex :=
  (Symbol.lex? none text).bind (build? [] empty)

/-- What the capturing groups hold, in the order of their opening parentheses. -/
def groups : Regex → List Regex
  | empty => []
  | start before | finish before | char before _ | many before _ _ => before.groups
  | capture before body => before.groups ++ body :: body.groups
  | optional before body => before.groups ++ body.groups

end Regex

end PathRouting
