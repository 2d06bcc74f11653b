import PathRouting.Pattern.Basic

/-!
# The rule of a pattern

The rule is the regular expression that a pattern stands for, as a text. A segment is a capturing
group of one or more characters other than the slash and the question mark, the wildcard one of
any characters, a group an optional group that captures nothing, and a literal character is
escaped where it would mean something else. The rule is anchored at both ends and ends in an
optional query, which is the last capturing group.
-/

namespace PathRouting

namespace Pattern

/-- The characters that mean something in a regular expression. -/
def isReserved (c : Char) : Bool :=
  c ∈ ['\\', '.', '+', '*', '?', '(', ')', '|', '[', ']', '\x7b', '\x7d', '^', '$', '#', '&', '-',
    '~']

def escapeReserved (c : Char) : List Char :=
  if isReserved c then ['\\', c] else [c]

def segmentRule : List Char := "([^/?]+)".toList

def wildcardRule : List Char := "([\\s\\S]+)".toList

def queryRule : List Char := "(?:\\?([\\s\\S]*))?".toList

end Pattern

/-- The rule of a token. -/
def Token.rule : Token → List Char
  | literal c => Pattern.escapeReserved c
  | segment _ => Pattern.segmentRule
  | wildcard => Pattern.wildcardRule
  | opening => "(?:".toList
  | closing => ")?".toList

/-- The rules of the tokens, one after the other, between the anchors and before the query. -/
def Pattern.rule (p : Pattern) : List Char :=
  '^' :: (p.tokens.flatMap Token.rule ++ (queryRule ++ ['$']))

end PathRouting
