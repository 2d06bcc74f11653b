/-!
# The tokens of a pattern

A pattern is read as tokens. A colon with a word behind it is a segment of that name, and the
name is the longest word that stands there; a colon without one is a literal character. A star is
a wildcard, and parentheses open and close a group. Every other character stands for itself.

The scan goes from the end: a character is put before the tokens of the text behind it, and a
colon takes up the word characters that they start with. `scan_colon` is the rule read forwards.
No character is lost: the sources of the tokens concatenate to the text (`flatMap_source_scan`).
-/

namespace PathRouting

inductive Token where
  | literal (c : Char)
  | segment (name : List Char)
  | wildcard
  | opening
  | closing
  deriving DecidableEq, Repr

namespace Token

/-- Letters and digits of ASCII, and the underscore. -/
def isWordChar (c : Char) : Bool :=
  c.isAlphanum || c = '_'

def isWord : Token → Bool
  | literal c => isWordChar c
  | _ => false

/-- The text that a token was read from. -/
def source : Token → List Char
  | literal c => [c]
  | segment name => ':' :: name
  | wildcard => ['*']
  | opening => ['(']
  | closing => [')']

/-- A colon before tokens: it makes a segment of the word that they start with. -/
def colon (tokens : List Token) : List Token :=
  match (tokens.takeWhile isWord).flatMap source with
  | [] => literal ':' :: tokens
  | name => segment name :: tokens.dropWhile isWord

/-- The tokens of a text whose first character is `c`, from those of the rest. -/
def prepend (c : Char) (tokens : List Token) : List Token :=
  match c with
  | ':' => colon tokens
  | '*' => wildcard :: tokens
  | '(' => opening :: tokens
  | ')' => closing :: tokens
  | c => literal c :: tokens

def scan (text : List Char) : List Token :=
  text.foldr prepend []

@[simp] theorem scan_nil : scan [] = [] := rfl

@[simp] theorem scan_cons (c : Char) (text : List Char) :
    scan (c :: text) = prepend c (scan text) := rfl

theorem prepend_of_isWordChar {c : Char} (h : isWordChar c = true) (tokens : List Token) :
    prepend c tokens = literal c :: tokens := by
  unfold prepend
  split <;> first | rfl | exact absurd h (by decide)

theorem prepend_of_not_isWordChar {c : Char} (h : isWordChar c = false) (tokens : List Token) :
    (prepend c tokens).takeWhile isWord = [] ∧
      (prepend c tokens).dropWhile isWord = prepend c tokens := by
  unfold prepend colon
  split <;> try split
  all_goals simp_all [isWord]

theorem takeWhile_isWord_scan (text : List Char) :
    ((scan text).takeWhile isWord).flatMap source = text.takeWhile isWordChar := by
  induction text with
  | nil => rfl
  | cons c text ih =>
    by_cases h : isWordChar c = true
    · simp [prepend_of_isWordChar h, isWord, h, source, ih]
    · simp [(prepend_of_not_isWordChar (by simpa using h) _).1, h]

theorem dropWhile_isWord_scan (text : List Char) :
    (scan text).dropWhile isWord = scan (text.dropWhile isWordChar) := by
  induction text with
  | nil => rfl
  | cons c text ih =>
    by_cases h : isWordChar c = true
    · simp [prepend_of_isWordChar h, isWord, h, ih]
    · simp [(prepend_of_not_isWordChar (by simpa using h) _).2, h]

/-- A colon takes the longest word behind it as a name, and is literal without one. -/
theorem scan_colon (text : List Char) :
    scan (':' :: text) =
      if text.takeWhile isWordChar = [] then literal ':' :: scan text
      else segment (text.takeWhile isWordChar) :: scan (text.dropWhile isWordChar) := by
  change colon (scan text) = _
  rw [colon, takeWhile_isWord_scan, dropWhile_isWord_scan]
  split <;> simp_all

theorem flatMap_source_colon (tokens : List Token) :
    (colon tokens).flatMap source = ':' :: tokens.flatMap source := by
  unfold colon
  split
  · simp [source]
  · rw [List.flatMap_cons, source, List.cons_append, ← List.flatMap_append,
      List.takeWhile_append_dropWhile]

theorem flatMap_source_prepend (c : Char) (tokens : List Token) :
    (prepend c tokens).flatMap source = c :: tokens.flatMap source := by
  unfold prepend
  split
  · exact flatMap_source_colon tokens
  all_goals simp [source]

theorem flatMap_source_scan (text : List Char) : (scan text).flatMap source = text := by
  induction text with
  | nil => rfl
  | cons c text ih => rw [scan_cons, flatMap_source_prepend, ih]

end Token

end PathRouting
