import PathRouting.Pattern.Front

/-!
# Remembered fronts

Long stretches of a url lead through the same few fronts again and again. A memo keeps next fronts
in slots, where a new one drives out an old one. Each carries the proof that it follows, so that a
front from the memo is as good as one that is computed, and nothing has to be known about slots.

A front that comes up again is replaced by the one that is kept, because a front is compared with
itself in no time.
-/

namespace PathRouting

/-- A next front that follows. -/
abbrev Successor (program : Program) (front : Front) (c : Char) :=
  {next : Advance // next.Follows program front c}

structure Memo.Entry (program : Program) where
  front : Front
  char : Char
  next : Successor program front char

structure Memo (program : Program) where
  entries : Array (Option (Memo.Entry program))
  fronts : Array (Option Front)
  /-- What the entries weigh. -/
  load : Nat
  /-- How many times all was forgotten. -/
  age : Nat
  seen : Seen

namespace Memo

variable {program : Program}

def empty (program : Program) : Memo program :=
  ⟨#[], #[], 0, 0, .empty⟩

/-- The slot for a number. -/
@[inline] def slot (code : UInt64) (size : Nat) : Nat :=
  (code >>> 20 % size.toUInt64).toNat

@[inline] def Entry.slot (front : Front) (c : Char) (size : Nat) : Nat :=
  Memo.slot (front.code + c.val.toUInt64 * 11400714819323198485) size

/-- The next front that is kept for a front and a character. -/
@[inline] def find? (memo : Memo program) (front : Front) (c : Char) :
    Option (Successor program front c) :=
  match memo.entries[Entry.slot front c memo.entries.size]? with
  | some (some e) =>
    if hc : e.char = c then
      if hf : e.front = front then some (hf ▸ hc ▸ e.next) else none
    else none
  | _ => none

/-- A front itself, as the object that is kept of it from now on. -/
def share (fronts : Array (Option Front)) (front : Front) :
    {f // f = front} × Array (Option Front) :=
  let i := slot front.code fronts.size
  match fronts[i]? with
  | some (some f) =>
    if h : f = front then (⟨f, h⟩, fronts)
    else (⟨front, rfl⟩, fronts.setIfInBounds i (some front))
  | _ => (⟨front, rfl⟩, fronts.setIfInBounds i (some front))

/-- The weight of an entry, apart from its points. -/
def entryWeight : Nat := 256

def minSlots : Nat := 16

def maxSlots : Nat := 4096

/-- Forgets all when the slots have taken what they can. There are more of them from then on. -/
def makeRoom (memo : Memo program) : Memo program :=
  if memo.load < entryWeight * memo.entries.size then memo
  else
    let slots := max minSlots (min maxSlots (2 * memo.entries.size))
    { entries := .replicate slots none
      fronts := .replicate slots none
      load := 0
      age := memo.age + 1
      seen := memo.seen }

theorem follows_of_eq {front key f : Front} {c : Char} {g : Growth} (hk : key = front)
    (hf : f = g.advance.front) (hg : g.advance.Follows program front c) :
    (Advance.mk f g.origins).Follows program key c := by
  subst hk hf
  exact hg

/-- Keeps what was built, and hands it out. -/
def record (entries : Array (Option (Entry program))) (fronts : Array (Option Front))
    (load age : Nat) (front : Front) (c : Char) (g : Growth)
    (hg : g.advance.Follows program front c) :
    Successor program front c × Memo program :=
  match share fronts front with
  | (⟨key, hk⟩, fronts) =>
    match share fronts g.advance.front with
    | (⟨f, hf⟩, fronts) =>
      let next : Successor program key c := ⟨⟨f, g.origins⟩, follows_of_eq hk hf hg⟩
      (hk ▸ next,
        { entries := entries.setIfInBounds (Entry.slot key c entries.size) (some ⟨key, c, next⟩)
          fronts
          load := load + entryWeight + key.points.size
          age
          seen := g.seen })

/-- Hands out what was built. -/
def handOut (entries : Array (Option (Entry program))) (fronts : Array (Option Front))
    (load age : Nat) (front : Front) (c : Char) (g : Growth)
    (hg : g.advance.Follows program front c) : Successor program front c × Memo program :=
  (⟨g.advance, hg⟩, ⟨entries, fronts, load, age, g.seen⟩)

/-- The next front. To look for that of a single point would take longer than to compute it. -/
@[inline] def advance (memo : Memo program) (front : Front) (c : Char) :
    Successor program front c × Memo program :=
  if front.points.size ≤ 1 then
    match memo with
    | ⟨entries, fronts, load, age, seen⟩ =>
      handOut entries fronts load age front c _ (follows_advance program front c seen)
  else
    match memo.find? front c with
    | some next => (next, memo)
    | none =>
      match memo.makeRoom with
      | ⟨entries, fronts, load, age, seen⟩ =>
        record entries fronts load age front c _ (follows_advance program front c seen)

end Memo

end PathRouting
