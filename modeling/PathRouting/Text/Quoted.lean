import PathRouting.Text.Invisible

/-!
# Quoted text stays on one line

A text is shown between double quotes. The quote and the backslash, the line breaks, the tab and
the character zero have short escapes of two characters. Every other character that does not show
on its own is written by its code, and all else stands for itself, so what is between the quotes
holds no bare quote and no line break.
-/

namespace PathRouting.Text

/-- The code of a character, between braces in lower-case hexadecimal without padding. -/
def byCode (c : Char) : List Char :=
  ['\\', 'u', '\x7b'] ++ Nat.toDigits 16 c.toNat ++ ['\x7d']

/-- How one character is written between the quotes. -/
def escape (c : Char) : List Char :=
  match c with
  | '"' => ['\\', '"']
  | '\\' => ['\\', '\\']
  | '\t' => ['\\', 't']
  | '\r' => ['\\', 'r']
  | '\n' => ['\\', 'n']
  | '\x00' => ['\\', '0']
  | c => if isInvisible c then byCode c else [c]

def quoted (text : List Char) : List Char :=
  '"' :: (text.flatMap escape ++ ['"'])

end PathRouting.Text
