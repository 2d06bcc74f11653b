import PathRouting.Pattern.Memo

/-!
# Matching

A url is read from the front, one character after the other. Whether it matches is seen from the
fronts alone. What it binds is found in a second run that leaves a trail: from the end of the match
the trail leads back to the start, and the way between says where each value starts and ends. A
match that ends at a query is put aside while better points are left, and is given up for every
match that these lead to.
-/

namespace PathRouting

/-- What was bound on the way to a point. -/
inductive Past where
  | start
  | bound (before : Past) (name : List Char) (source : List Char) (length : Nat)
  /-- The way is in a value that started with `source`. -/
  | within (before : Past) (source : List Char) (taken : Nat)

namespace Past

/-- Puts what was bound before what is read from the point on. -/
def finish : Past → Captures → Captures
  | start, r => r
  | bound before name source length, r => before.finish (r.bindFirst name ⟨source, length⟩)
  | within before source taken, r => before.finish (r.stretch source taken)

/-- The past after the first character of a text, on the way from a point to a target. It stays in
a value if it stays at the point. -/
def move (program : Program) (past : Past) (text : List Char) (point target : Nat) : Past :=
  match program.node? point with
  | some (.value _ name) =>
    match past with
    | within before source taken =>
      if target = point then within before source (taken + 1)
      else bound before name source (taken + 1)
    | past => if target = point then within past text 1 else bound past name text 1
  | _ => past

end Past

/-- The reading of the first character of a text, from the points of a front to the next front. -/
structure Step where
  text : List Char
  points : Array Nat
  next : Advance

namespace Step

/-- The pasts of the points behind a step. -/
def pasts (program : Program) (s : Step) (pasts : Array Past) : Array Past :=
  Array.zipWith
    (fun i target => (pasts.getD i .start).move program s.text (s.points.getD i 0) target)
    s.next.origins s.next.front.points

end Step

/-- A way from a point to a target over the first character of a text. -/
structure Move where
  text : List Char
  point : Nat
  target : Nat

def Past.follow (program : Program) (past : Past) (m : Move) : Past :=
  past.move program m.text m.point m.target

/-- The steps to a front, the last first, from a front whose points have known pasts. -/
structure Trail where
  pasts : Array Past
  steps : List Step

namespace Trail

/-- The past of the point at a position, where moves that come after it are known. -/
def back (program : Program) (pasts : Array Past) : List Step → Nat → List Move → Past
  | [], i, moves => moves.foldl (Past.follow program) (pasts.getD i .start)
  | s :: steps, i, moves =>
    match s.next.origins[i]?, s.next.front.points[i]? with
    | some k, some target =>
      back program pasts steps k (⟨s.text, s.points.getD k 0, target⟩ :: moves)
    | _, _ => moves.foldl (Past.follow program) .start

/-- The past of the point at a position. -/
def past (program : Program) (trail : Trail) (i : Nat) : Past :=
  back program trail.pasts trail.steps i []

def push (trail : Trail) (s : Step) : Trail :=
  { trail with steps := s :: trail.steps }

/-- A trail with the pasts of all its points, which needs the steps no longer. -/
def settle (program : Program) (trail : Trail) : Trail :=
  ⟨trail.steps.foldr (Step.pasts program) trail.pasts, []⟩

end Trail

/-- A match as the end of its path. -/
structure Ending where
  trail : Trail
  position : Nat
  captures : Captures

def Ending.finish (program : Program) (e : Ending) : Captures :=
  (e.trail.past program e.position).finish e.captures

/-- The match whose path ends before a text. -/
def Front.ending? (front : Front) (trail : Trail) (text : List Char) : Option Ending :=
  match Captures.ofRest text with
  | none => none
  | some r => (front.points.findIdx? (· == 0)).map fun i => ⟨trail, i, r⟩

/-- What comes of the literal nodes behind a front. -/
inductive Skip where
  | stay
  | fail
  | pass (point : Nat) (rest : List Char)

/-- Passes the literal nodes behind a front of one point. -/
def Front.skip (front : Front) (program : Program) (text : List Char) : Skip :=
  if front.points.size = 1 then
    let point := front.points.getD 0 0
    match program.skip point text with
    | none => .fail
    | some (target, rest) => if target = point then .stay else .pass target rest
  else .stay

namespace Program

/-- Whether a text, of at most `fuel` characters, matches from a front on. -/
def accepts (program : Program) : (fuel : Nat) → List Char → Memo program → Front → Bool
  | _, [], _, front => front.points.contains 0
  | 0, _ :: _, _, _ => false
  | fuel + 1, c :: text, memo, front =>
    if front.points.isEmpty then false
    else if c = '?' && front.points.contains 0 then true
    else
      let (next, memo) := memo.advance front c
      let front := next.1.front
      match front.skip program text with
      | .stay => program.accepts fuel text memo front
      | .fail => false
      | .pass point rest => program.accepts fuel rest memo (program.frontAt point)

def isMatch (program : Program) (url : List Char) : Bool :=
  match program.skip program.size url with
  | none => false
  | some (point, text) =>
    program.accepts text.length text (.empty program) (program.frontAt point)

/-- The best match of a text, of at most `fuel` characters, from a front on, or else the match that
was put aside. A memo that has forgotten its fronts shares none of them with the trail, which is
settled then. -/
def trace (program : Program) :
    (fuel : Nat) → List Char → Memo program → Front → Trail → Option Ending → Option Ending
  | _, [], _, front, trail, aside => (front.ending? trail []).or aside
  | 0, _ :: _, _, _, _, aside => aside
  | fuel + 1, c :: text, memo, front, trail, aside =>
    if front.points.isEmpty then aside
    else
      let aside := (front.ending? trail (c :: text)).or aside
      let age := memo.age
      let (next, memo) := memo.advance front c
      let trail := trail.push ⟨c :: text, front.live c, next.1⟩
      let trail := if memo.age = age then trail else trail.settle program
      let front := next.1.front
      match front.skip program text with
      | .stay => program.trace fuel text memo front trail aside
      | .fail => aside
      | .pass point rest =>
        let behind := program.frontAt point
        let origins := Array.replicate behind.points.size 0
        let trail := trail.push ⟨text, front.points, ⟨behind, origins⟩⟩
        program.trace fuel rest memo behind trail aside

/-- The match of highest priority of a url. -/
def captures (program : Program) (url : List Char) : Option Captures :=
  if program.isMatch url then
    match program.skip program.size url with
    | none => none
    | some (point, text) =>
      let start := program.frontAt point
      (program.trace text.length text (.empty program) start ⟨#[], []⟩ none).map
        (Ending.finish program)
  else none

end Program

end PathRouting
