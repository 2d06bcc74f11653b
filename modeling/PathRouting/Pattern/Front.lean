import PathRouting.Pattern.Program

/-!
# Fronts

A front is the list of the points where a match can stand at a place of the url, the best first.
Each point stands there once: what follows depends on the point alone, and a worse way to it could
only repeat what a better one has failed at. Reading a character takes a front to the next one, and
remembers for each point the position of the point before.

`Advance.Follows` says what a next front has to do with the front before, whatever the rest of the
url is. It is all that matching relies on, so how the points are found is free (`follows_advance`).
-/

namespace PathRouting

/-- The points that were met in a step. The first few can stand in a list. For the others, the mark
at a point is the number of the step that met it last. -/
structure Seen where
  few : List Nat
  /-- The number of points for which there is room in the list. -/
  room : Nat
  marks : Array Nat
  /-- The number of steps before this one. -/
  past : Nat
  marks_le : ∀ point, marks.getD point 0 ≤ past + 1

namespace Seen

def empty : Seen where
  few := []
  room := 0
  marks := #[]
  past := 0
  marks_le := fun _ => Nat.zero_le _

/-- Forgets all points, for the next step. -/
def clear (seen : Seen) (room : Nat) : Seen where
  few := []
  room := room
  marks := seen.marks
  past := seen.past + 1
  marks_le := fun point => Nat.le_succ_of_le (seen.marks_le point)

def has (seen : Seen) (point : Nat) : Bool :=
  seen.few.any (· == point) || seen.marks.getD point 0 == seen.past + 1

/-- Makes room for a mark at a point. -/
@[inline] def reach (marks : Array Nat) (point : Nat) : Array Nat :=
  if point < marks.size then marks else marks ++ Array.replicate (point + 1 - marks.size) 0

theorem getD_reach (marks : Array Nat) (point i : Nat) :
    (reach marks point).getD i 0 = marks.getD i 0 := by
  unfold reach
  split
  · rfl
  · simp only [Array.getD_eq_getD_getElem?, Array.getElem?_append, Array.getElem?_replicate]
    split
    · rfl
    · next h => rw [Array.getElem?_eq_none (by omega)]; split <;> rfl

theorem lt_size_reach (marks : Array Nat) (point : Nat) : point < (reach marks point).size := by
  unfold reach
  split
  · assumption
  · rw [Array.size_append, Array.size_replicate]; omega

theorem getD_mark (marks : Array Nat) (point n i : Nat) :
    ((reach marks point).setIfInBounds point n).getD i 0 =
      if point = i then n else marks.getD i 0 := by
  rw [← getD_reach marks point i, Array.getD_eq_getD_getElem?, Array.getD_eq_getD_getElem?,
    Array.getElem?_setIfInBounds]
  split
  · next h => subst h; rw [if_pos (lt_size_reach marks point)]; rfl
  · rfl

def add (seen : Seen) (point : Nat) : Seen :=
  if seen.room = 0 then
    { seen with
      marks := (reach seen.marks point).setIfInBounds point (seen.past + 1)
      marks_le := fun i => by
        rw [getD_mark]
        split
        · exact Nat.le_refl _
        · exact seen.marks_le i }
  else { seen with few := point :: seen.few, room := seen.room - 1 }

theorem has_clear (seen : Seen) (room point : Nat) : (seen.clear room).has point = false := by
  have h := seen.marks_le point
  simp only [has, clear, List.any_nil, Bool.false_or, beq_eq_false_iff_ne]
  omega

theorem has_add (seen : Seen) (i j : Nat) : (seen.add i).has j = (i == j || seen.has j) := by
  unfold add has
  split
  · simp only [getD_mark]
    split
    · next h => simp [h]
    · next h => simp [h]
  · simp [Bool.or_assoc]

end Seen

/-- The points where a match can stand, the best first. -/
@[ext] structure Front where
  /-- A number that tells most fronts apart. -/
  code : UInt64
  points : Array Nat

/-- A front is compared with itself in no time. -/
instance : DecidableEq Front := fun a b =>
  withPtrEqDecEq a b fun _ =>
    decidable_of_iff (a.code = b.code ∧ a.points = b.points) Front.ext_iff.symm

/-- A next front. Each of its points has the position of the point before. -/
structure Advance where
  front : Front
  origins : Array Nat

/-- The points that are left when a character is read. At a question mark the path can end, and
what is worse than this end is given up. -/
def Front.live (front : Front) (c : Char) : Array Nat :=
  if c = '?' then front.points.takeWhile (· != 0) else front.points

/-- The first answer behind a character, with the position of the point that reads it. -/
def Front.firstExit (front : Front) (program : Program) (c : Char) (leaf : Nat → Option Reading) :
    Option (Nat × Reading) :=
  (front.live c).toList.zipIdx.findSome? fun (point, i) =>
    ((program.exits c point).findSome? (program.choose leaf)).map fun r => (i, r)

/-- The first answer at points, with the positions of the points before. -/
def firstOf (leaf : Nat → Option Reading) (origins points : Array Nat) : Option (Nat × Reading) :=
  (origins.toList.zip points.toList).findSome? fun (i, point) => (leaf point).map fun r => (i, r)

/-- What a next front answers is the first answer behind the character. -/
structure Advance.Follows (next : Advance) (program : Program) (front : Front) (c : Char) :
    Prop where
  size_eq : next.origins.size = next.front.points.size
  first_eq : ∀ leaf,
    firstOf leaf next.origins next.front.points = front.firstExit program c leaf

/-- A next front that is being built. -/
structure Growth where
  seen : Seen
  /-- The position of the point that reads the character. -/
  origin : Nat
  code : UInt64
  points : Array Nat
  origins : Array Nat
  size_eq : origins.size = points.size

namespace Growth

/-- As many points are met one by one before marks are used. -/
def maxFew : Nat := 8

/-- Nothing is built yet. A front of some size is expected. -/
def start (seen : Seen) (size : Nat) : Growth where
  seen := seen.clear (if size ≤ maxFew then maxFew else 0)
  origin := 0
  code := 0
  points := Array.emptyWithCapacity size
  origins := Array.emptyWithCapacity size
  size_eq := rfl

def advance (g : Growth) : Advance :=
  ⟨⟨g.code, g.points⟩, g.origins⟩

def mark (g : Growth) (point : Nat) : Growth :=
  { g with seen := g.seen.add point }

def push (g : Growth) (point : Nat) : Growth where
  seen := g.seen.add point
  origin := g.origin
  code := g.code * 6364136223846793005 + point.toUInt64 + 1
  points := g.points.push point
  origins := g.origins.push g.origin
  size_eq := by rw [Array.size_push, Array.size_push, g.size_eq]

/-- Turns to the next point of the front before. -/
def turn (g : Growth) : Growth :=
  { g with origin := g.origin + 1 }

def first (g : Growth) (leaf : Nat → Option Reading) : Option (Nat × Reading) :=
  firstOf leaf g.origins g.points

/-- Where no point answers, none up to `i` that was met does. -/
def Covers (g : Growth) (program : Program) (i : Nat) : Prop :=
  ∀ leaf, g.first leaf = none → ∀ j ≤ i, g.seen.has j = true → program.choose leaf j = none

end Growth

namespace Program

/-- Enters a point: the points that it decides to stand at, and that were not met before, are put
behind the others. -/
def enter (program : Program) : Nat → Growth → Growth
  | 0, g => if g.seen.has 0 then g else g.push 0
  | i + 1, g =>
    if g.seen.has (i + 1) then g
    else
      match program[i]? with
      | some (.optional length) => program.enter (i - length) (program.enter i (g.mark (i + 1)))
      | _ => g.push (i + 1)

/-- Reads a character at a point. -/
def pass (program : Program) (c : Char) (point : Nat) (g : Growth) : Growth :=
  match point with
  | 0 => g
  | i + 1 =>
    match program[i]? with
    | some (.literal x) => if c = x then program.enter i g else g
    | some (.value extent _) =>
      if extent.admits c then program.enter i (program.enter (i + 1) g) else g
    | _ => g

/-- Reads a character at each point of a front. -/
def advance (program : Program) (front : Front) (c : Char) (seen : Seen) : Growth :=
  (front.live c).foldl (fun g point => (program.pass c point g).turn)
    (.start seen front.points.size)

/-- The front where a point is entered. -/
def frontAt (program : Program) (point : Nat) : Front :=
  (program.enter point (.start .empty 0)).advance.front

end Program

section Proofs

variable {program : Program} {g : Growth} {leaf : Nat → Option Reading}

theorem Growth.first_push (point : Nat) :
    (g.push point).first leaf = (g.first leaf).or ((leaf point).map fun r => (g.origin, r)) := by
  have h : g.origins.toList.length = g.points.toList.length := by simpa using g.size_eq
  simp only [first, firstOf, push, Array.toList_push, List.zip_append h, List.findSome?_append,
    List.zip_cons_cons, List.zip_nil_right, List.findSome?_cons, List.findSome?_nil]
  cases leaf point <;> rfl

/-- What it means that a point was entered. -/
structure Entered (program : Program) (i : Nat) (g h : Growth) : Prop where
  origin_eq : h.origin = g.origin
  first_eq : ∀ leaf, h.first leaf =
    (g.first leaf).or ((program.choose leaf i).map fun r => (g.origin, r))
  has_eq : ∀ j > i, h.seen.has j = g.seen.has j
  covers : h.Covers program i

theorem entered_of_has {i : Nat} (hc : g.Covers program i) (hi : g.seen.has i = true) :
    Entered program i g g where
  origin_eq := rfl
  first_eq leaf := by
    cases hf : g.first leaf with
    | some r => rfl
    | none => rw [hc leaf hf i (Nat.le_refl i) hi]; rfl
  has_eq _ _ := rfl
  covers := hc

theorem entered_push {i : Nat} (hc : g.Covers program i)
    (hi : ∀ leaf : Nat → Option Reading, program.choose leaf i = leaf i) :
    Entered program i g (g.push i) where
  origin_eq := rfl
  first_eq leaf := by rw [Growth.first_push, hi]
  has_eq j hj := by
    rw [Growth.push, Seen.has_add, beq_eq_false_iff_ne.2 (Nat.ne_of_lt hj), Bool.false_or]
  covers leaf hf j hj hs := by
    rw [Growth.first_push, Option.or_eq_none_iff, Option.map_eq_none_iff] at hf
    rw [Growth.push, Seen.has_add, Bool.or_eq_true, beq_iff_eq] at hs
    rcases hs with rfl | hs
    · rw [hi]; exact hf.2
    · exact hc leaf hf.1 j hj hs

theorem entered_enter (i : Nat) : ∀ g : Growth, g.Covers program i →
    Entered program i g (program.enter i g) := by
  induction i using Nat.strongRecOn with
  | ind i ih =>
    intro g hc
    match i with
    | 0 =>
      rw [Program.enter]
      split
      · exact entered_of_has hc ‹_›
      · exact entered_push hc fun leaf => by rw [Program.choose]
    | i + 1 =>
      rw [Program.enter]
      split
      · exact entered_of_has hc ‹_›
      · split
        · next length hl =>
          have mark (j : Nat) (hj : j ≤ i) : (g.mark (i + 1)).seen.has j = g.seen.has j := by
            rw [Growth.mark, Seen.has_add, beq_eq_false_iff_ne.2 (by omega), Bool.false_or]
          have kept := ih i (by omega) (g.mark (i + 1)) fun leaf hf j hj hs =>
            hc leaf hf j (by omega) (by rwa [← mark j hj])
          have dropped := ih (i - length) (by omega) _ fun leaf hf j hj hs =>
            kept.covers leaf hf j (by omega) hs
          have first_eq (leaf : Nat → Option Reading) :
              (program.enter (i - length) (program.enter i (g.mark (i + 1)))).first leaf =
                (g.first leaf).or ((program.choose leaf (i + 1)).map fun r => (g.origin, r)) := by
            rw [dropped.first_eq, kept.first_eq, kept.origin_eq, Program.choose_succ_of_optional hl]
            change ((g.first leaf).or _).or _ = _
            rw [Option.or_assoc]
            cases program.choose leaf i <;> rfl
          refine ⟨?_, first_eq, fun j hj => ?_, fun leaf hf j hj hs => ?_⟩
          · rw [dropped.origin_eq, kept.origin_eq]; rfl
          · rw [dropped.has_eq j (by omega), kept.has_eq j (by omega), Growth.mark, Seen.has_add,
              beq_eq_false_iff_ne.2 (by omega), Bool.false_or]
          · have hn := hf
            rw [first_eq, Option.or_eq_none_iff, Option.map_eq_none_iff] at hn
            rcases Nat.lt_or_ge (i - length) j with hj' | hj'
            · rcases Nat.lt_or_ge i j with hi | hi
              · rw [show j = i + 1 by omega]; exact hn.2
              · rw [dropped.has_eq j hj'] at hs
                rw [dropped.first_eq, Option.or_eq_none_iff] at hf
                exact kept.covers leaf hf.1 j hi hs
            · exact dropped.covers leaf hf j hj' hs
        · next hl => exact entered_push hc fun leaf => Program.choose_succ hl

/-- What it means that all of some points were entered. -/
structure EnteredAll (program : Program) (points : List Nat) (g h : Growth) : Prop where
  origin_eq : h.origin = g.origin
  first_eq : ∀ leaf, h.first leaf =
    (g.first leaf).or ((points.findSome? (program.choose leaf)).map fun r => (g.origin, r))
  covers : ∀ i, h.Covers program i

namespace EnteredAll

theorem nil (hc : ∀ i, g.Covers program i) : EnteredAll program [] g g :=
  ⟨rfl, fun leaf => by simp, hc⟩

theorem cons {i : Nat} {points : List Nat} {h : Growth} (hc : ∀ i, g.Covers program i)
    (e : EnteredAll program points (program.enter i g) h) :
    EnteredAll program (i :: points) g h where
  origin_eq := e.origin_eq.trans (entered_enter i g (hc i)).origin_eq
  first_eq leaf := by
    have := entered_enter i g (hc i)
    rw [e.first_eq, this.first_eq, this.origin_eq, Option.or_assoc, List.findSome?_cons]
    cases program.choose leaf i <;> rfl
  covers := e.covers

end EnteredAll

theorem covers_enter (i : Nat) (hc : ∀ j, g.Covers program j) (k : Nat) :
    (program.enter i g).Covers program k := fun leaf hf j hj hs => by
  have e := entered_enter i g (hc i)
  rcases Nat.lt_or_ge i j with hi | hi
  · rw [e.has_eq j hi] at hs
    rw [e.first_eq, Option.or_eq_none_iff] at hf
    exact hc k leaf hf.1 j hj hs
  · exact e.covers leaf hf j hi hs

theorem enteredAll_pass (c : Char) (point : Nat) (hc : ∀ i, g.Covers program i) :
    EnteredAll program (program.exits c point) g (program.pass c point g) := by
  match point with
  | 0 => exact .nil hc
  | i + 1 =>
    rcases hn : program[i]? with _ | x | ⟨extent, name⟩ | length <;>
      simp only [Program.pass, Program.exits, hn]
    · exact .nil hc
    · split
      · exact .cons hc (.nil (covers_enter i hc))
      · exact .nil hc
    · split
      · exact .cons hc (.cons (covers_enter _ hc) (.nil (covers_enter i (covers_enter _ hc))))
      · exact .nil hc
    · exact .nil hc

theorem first_foldl_pass (c : Char) (points : List Nat) :
    ∀ g : Growth, (∀ i, g.Covers program i) → ∀ leaf,
      (points.foldl (fun g point => (program.pass c point g).turn) g).first leaf =
        (g.first leaf).or ((points.zipIdx g.origin).findSome? fun (point, i) =>
          ((program.exits c point).findSome? (program.choose leaf)).map fun r => (i, r)) := by
  induction points with
  | nil => intro g _ leaf; simp
  | cons point points ih =>
    intro g hc leaf
    have e := enteredAll_pass c point hc
    rw [List.foldl_cons, ih (program.pass c point g).turn e.covers]
    change ((program.pass c point g).first leaf).or
      ((points.zipIdx ((program.pass c point g).origin + 1)).findSome? _) = _
    rw [e.first_eq, e.origin_eq, Option.or_assoc, List.zipIdx_cons, List.findSome?_cons]
    dsimp only
    cases (program.exits c point).findSome? (program.choose leaf) <;> rfl

theorem follows_advance (program : Program) (front : Front) (c : Char) (seen : Seen) :
    (program.advance front c seen).advance.Follows program front c where
  size_eq := (program.advance front c seen).size_eq
  first_eq leaf := by
    have hc (i : Nat) : (Growth.start seen front.points.size).Covers program i :=
      fun leaf _ j _ hs => by rw [Growth.start, Seen.has_clear] at hs; cases hs
    have h := first_foldl_pass c (front.live c).toList _ hc leaf
    rw [Array.foldl_toList] at h
    exact h

end Proofs

end PathRouting
