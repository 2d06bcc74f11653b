import PathRouting.Proofs.Regex.Syntax

/-!
# Running regular expressions

A regular expression is run as a search with backtracking would: `Regex.runs` lists every way in
which it goes through a text, the best first, with what its capturing groups took part with, and
`Regex.captures?` takes the first one from the leftmost place where there is one. Which characters
are white space is left open.
-/

namespace PathRouting

section Runs

variable (isSpace : Char → Bool)

def ClassItem.admits : ClassItem → Char → Bool
  | char x, c => c = x
  | space, c => isSpace c
  | notSpace, c => !isSpace c

def CharClass.admits (k : CharClass) (c : Char) : Bool :=
  (k.items.any fun item => item.admits isSpace c) != k.negated

/-- What the capturing groups took part with, and what is left of the text. -/
structure Run where
  groups : List (Option (List Char))
  rest : List Char
  deriving DecidableEq, Repr

namespace Run

/-- The runs of what follows, with the groups before them. -/
def andThen (w : Run) (next : List Char → List Run) : List Run :=
  (next w.rest).map fun v => ⟨w.groups ++ v.groups, v.rest⟩

def stay (p : Bool) (text : List Char) : List Run :=
  if p then [⟨[], text⟩] else []

def char (c : Char) : List Char → List Run
  | [] => []
  | x :: text => stay (x = c) text

/-- The splits of a text behind allowed characters, the most characters first. -/
def splits (allowed : Char → Bool) : List Char → List (List Char × List Char)
  | [] => [([], [])]
  | c :: text =>
    if allowed c then (splits allowed text).map (fun s => (c :: s.1, s.2)) ++ [([], c :: text)]
    else [([], c :: text)]

def many (k : CharClass) (least : Nat) (text : List Char) : List Run :=
  ((splits (k.admits isSpace) text).filter fun s => least ≤ s.1.length).map fun s => ⟨[], s.2⟩

/-- A group with what was taken of a text, before those inside it. -/
def capture (text : List Char) (w : Run) : Run :=
  ⟨some (text.take (text.length - w.rest.length)) :: w.groups, w.rest⟩

/-- A run in which so many groups take no part. -/
def without (groups : Nat) (text : List Char) : Run :=
  ⟨List.replicate groups none, text⟩

end Run

namespace Regex

/-- The runs of an expression from a text on that ends the whole text, the best first. -/
def runs (whole : List Char) : Regex → List Char → List Run
  | empty, text => [⟨[], text⟩]
  | start before, text =>
    (before.runs whole text).flatMap fun w => w.andThen fun rest => Run.stay (rest = whole) rest
  | finish before, text =>
    (before.runs whole text).flatMap fun w => w.andThen fun rest => Run.stay (rest = []) rest
  | char before c, text => (before.runs whole text).flatMap fun w => w.andThen (Run.char c)
  | many before k least, text =>
    (before.runs whole text).flatMap fun w => w.andThen (Run.many isSpace k least)
  | capture before body, text =>
    (before.runs whole text).flatMap fun w => w.andThen fun rest =>
      (body.runs whole rest).map (Run.capture rest)
  | optional before body, text =>
    (before.runs whole text).flatMap fun w => w.andThen fun rest =>
      body.runs whole rest ++ [Run.without body.groups.length rest]

/-- The groups of the first run from the leftmost place on, behind all that is matched. -/
def capturesFrom? (r : Regex) (whole : List Char) : List Char → Option (List (Option (List Char)))
  | [] => (r.runs isSpace whole []).head?.map fun w => (Run.capture [] w).groups
  | c :: text =>
    ((r.runs isSpace whole (c :: text)).head?.map fun w => (Run.capture (c :: text) w).groups).or
      (r.capturesFrom? whole text)

/-- The captures of a text, by number. Number 0 is all that is matched. -/
def captures? (r : Regex) (text : List Char) : Option (List (Option (List Char))) :=
  r.capturesFrom? isSpace text text

end Regex

end Runs

namespace Run

theorem flatMap_andThen (f g : List Char → List Run) (u : Run) :
    (u.andThen f).flatMap (fun v => v.andThen g) =
      u.andThen fun rest => (f rest).flatMap fun v => v.andThen g := by
  rw [andThen, andThen, List.flatMap_map, List.map_flatMap]
  simp [andThen, Function.comp_def]

theorem eq_append_of_mem_splits {allowed : Char → Bool} :
    ∀ {text : List Char} {s : List Char × List Char}, s ∈ splits allowed text → text = s.1 ++ s.2
  | [], s, h => by
    rw [List.mem_singleton.1 h]
    rfl
  | c :: text, s, h => by
    rw [splits] at h
    split at h
    · rcases List.mem_append.1 h with h | h
      · obtain ⟨s, hs, rfl⟩ := List.mem_map.1 h
        rw [eq_append_of_mem_splits hs]
        rfl
      · rw [List.mem_singleton.1 h]
        rfl
    · rw [List.mem_singleton.1 h]
      rfl

/-- Of all splits of a text only the first leaves nothing. -/
theorem flatMap_splits {β : Type} (f : List Char → β) :
    ∀ text : List Char, (splits (fun _ => true) text).flatMap
      (fun s => if s.2 = [] then [f s.1] else []) = [f text]
  | [] => rfl
  | c :: text => by
    rw [splits, if_pos rfl, List.flatMap_append, List.flatMap_map,
      flatMap_splits fun value => f (c :: value)]
    rfl

end Run

end PathRouting
