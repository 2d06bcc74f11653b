/-!
# Captures

What a match of a url binds: names with stretches of the url, in pattern order, and the query if
there is one. A stretch is kept as the text from where it starts and a length, so that binding a
name does not copy the text.
-/

namespace PathRouting

/-- The first `length` characters of `source`. -/
structure Span where
  source : List Char
  length : Nat
  deriving DecidableEq, Repr

def Span.text (s : Span) : List Char :=
  s.source.take s.length

structure Binding where
  name : List Char
  span : Span
  deriving DecidableEq, Repr

structure Captures where
  bindings : List Binding
  query : Option (List Char)
  deriving DecidableEq, Repr

namespace Captures

/-- The captures of a path that ends before `rest`: what is left has to be a query. -/
def ofRest : List Char → Option Captures
  | [] => some ⟨[], none⟩
  | c :: text => if c = '?' then some ⟨[], some text⟩ else none

/-- Binds a name to the left of the other bindings. -/
def bindFirst (name : List Char) (span : Span) (r : Captures) : Captures :=
  { r with bindings := ⟨name, span⟩ :: r.bindings }

/-- Puts `length` characters before the first stretch, so that it starts with `source`. -/
def stretch (source : List Char) (length : Nat) (r : Captures) : Captures :=
  match r.bindings with
  | [] => r
  | b :: bindings => { r with bindings := ⟨b.name, ⟨source, length + b.span.length⟩⟩ :: bindings }

theorem stretch_stretch (source source' : List Char) (m n : Nat) (r : Captures) :
    (r.stretch source m).stretch source' n = r.stretch source' (n + m) := by
  obtain ⟨_ | ⟨b, bindings⟩, query⟩ := r
  · rfl
  · simp [stretch, Nat.add_assoc]

end Captures

end PathRouting
