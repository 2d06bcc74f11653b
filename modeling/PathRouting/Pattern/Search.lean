import PathRouting.Pattern.Program

/-!
# The exhaustive search

The search tries every way in which a pattern can match, in the order of priority: it keeps a group
before it drops it, and lets a parameter take one more character before it stops. What follows a
part is a function that answers at a place of the url. Only the order of the attempts is said here,
and a choice may be tried many times over.

The program of a pattern reads what the search finds (`means_program`).
-/

namespace PathRouting

/-- What follows a part, as the answer that it gives for a text. -/
abbrev Next := List Char → Option Captures

namespace Pattern

/-- Tries to read one character. -/
def searchLiteral (c : Char) (next : Next) : Next
  | [] => none
  | x :: text => if x = c then next text else none

/-- Takes as many allowed characters as possible, perhaps none, and counts them. -/
def searchMore (allowed : Char → Bool) (next : Next) : List Char → Option (Nat × Captures)
  | [] => (next []).map fun r => (0, r)
  | c :: text =>
    let taken :=
      if allowed c then (searchMore allowed next text).map fun (n, r) => (n + 1, r) else none
    taken.or ((next (c :: text)).map fun r => (0, r))

/-- Takes as many allowed characters as possible, at least one, and counts them. -/
def searchSome (allowed : Char → Bool) (next : Next) : List Char → Option (Nat × Captures)
  | [] => none
  | c :: text =>
    if allowed c then (searchMore allowed next text).map fun (n, r) => (n + 1, r) else none

/-- Binds a name to as many allowed characters as possible, at least one. -/
def searchValue (allowed : Char → Bool) (name : List Char) (next : Next) : Next :=
  fun text => (searchSome allowed next text).map fun (n, r) => r.bindFirst name ⟨text, n⟩

/-- The first match of a pattern and what follows, in the order of priority. -/
def search : Pattern → Next → Next
  | empty, next => next
  | literal before c, next => before.search (searchLiteral c next)
  | segment before name, next => before.search (searchValue isSegmentChar name next)
  | wildcard before, next => before.search (searchValue (fun _ => true) wildcardName next)
  | group before body, next => before.search fun text => (body.search next text).or (next text)

theorem searchMore_eq (allowed : Char → Bool) (next : Next) (text : List Char) :
    searchMore allowed next text =
      (searchSome allowed next text).or ((next text).map fun r => (0, r)) := by
  cases text <;> rfl

/-- A pattern that can be empty fails only where what follows fails. -/
theorem eq_none_of_search_eq_none {p : Pattern} (hp : p.canBeEmpty = true) {next : Next}
    {text : List Char} (h : p.search next text = none) : next text = none := by
  induction p generalizing next with
  | empty => exact h
  | literal before c => cases hp
  | segment before name => cases hp
  | wildcard before => cases hp
  | group before body ih => exact (Option.or_eq_none_iff.1 (ih hp h)).2

end Pattern

namespace Program

/-- Reads a text at a point where groups can start. -/
def readAt (program : Program) (text : List Char) (point : Nat) : Option Reading :=
  program.choose (program.read text) point

theorem read_cons (program : Program) (c : Char) (text : List Char) (i : Nat) :
    program.read (c :: text) (i + 1) =
      ((program.exits c (i + 1)).findSome? (program.readAt text)).map
        (program.extend (i + 1) (c :: text)) := rfl

theorem point_of_read {program : Program} {text : List Char} {point : Nat} {r : Reading}
    (h : program.read text point = some r) : r.point = point := by
  cases text <;> cases point <;> simp only [read, Reading.ofRest, Option.map_eq_some_iff] at h
  · obtain ⟨_, _, rfl⟩ := h; rfl
  · cases h
  · obtain ⟨_, _, rfl⟩ := h; rfl
  · obtain ⟨_, _, rfl⟩ := h; rfl

theorem point_le_of_choose {program : Program} {leaf : Nat → Option Reading}
    (hl : ∀ point r, leaf point = some r → r.point = point) (point : Nat) :
    ∀ r, program.choose leaf point = some r → r.point ≤ point := by
  induction point using Nat.strongRecOn with
  | ind point ih =>
    intro r h
    match point with
    | 0 => rw [choose] at h; exact Nat.le_of_eq (hl 0 r h)
    | i + 1 =>
      rw [choose] at h
      split at h
      · next length _ =>
        rw [Option.or_eq_some_iff] at h
        rcases h with h | ⟨_, h⟩
        · exact Nat.le_succ_of_le (ih i (by omega) r h)
        · have := ih (i - length) (by omega) r h; omega
      · exact Nat.le_of_eq (hl _ r h)

theorem point_le_of_readAt {program : Program} {text : List Char} {point : Nat} {r : Reading}
    (h : program.readAt text point = some r) : r.point ≤ point :=
  point_le_of_choose (fun _ _ => point_of_read) point r h

section Skip

variable {program : Program} {point target : Nat} {text rest : List Char}

theorem length_le_of_skip (h : program.skip point text = some (target, rest)) :
    rest.length ≤ text.length := by
  induction point generalizing text with
  | zero => cases h; exact Nat.le_refl _
  | succ i ih =>
    rw [skip] at h
    split at h
    · split at h
      · cases h
      · split at h
        · exact Nat.le_succ_of_le (ih h)
        · cases h
    · cases h; exact Nat.le_refl _

theorem readAt_of_literal {x : Char} (h : program.node? point = some (.literal x))
    (text : List Char) : program.readAt text point = program.read text point := by
  cases point with
  | zero => cases h
  | succ i =>
    rw [node?] at h
    exact choose_succ fun length hl => by rw [h] at hl; cases hl

/-- Only at a literal node is anything passed. -/
theorem literal_of_skip (h : program.skip point text ≠ some (point, text)) :
    ∃ x, program.node? point = some (.literal x) := by
  cases point with
  | zero => exact absurd rfl h
  | succ i =>
    rw [skip] at h
    rw [node?]
    split at h
    · next x hx => exact ⟨x, hx⟩
    · exact absurd rfl h

/-- What literal nodes bind: nothing. -/
theorem map_captures_skip (point : Nat) (text : List Char) :
    (program.readAt text point).map Reading.captures =
      (program.skip point text).bind fun (target, rest) =>
        (program.readAt rest target).map Reading.captures := by
  induction point generalizing text with
  | zero => rfl
  | succ i ih =>
    rw [skip]
    split
    · next x hx =>
      rw [readAt_of_literal (show program.node? (i + 1) = _ from hx)]
      cases text with
      | nil => rfl
      | cons c text =>
        rw [read_cons]
        simp only [exits, hx]
        split
        · rw [← ih, List.findSome?_cons, List.findSome?_nil]
          cases program.readAt text i <;> simp [extend, node?, hx]
        · rfl
    · rfl

end Skip

theorem findSome?_congr {α β : Type} {f g : α → Option β} :
    ∀ {l : List α}, (∀ x ∈ l, f x = g x) → l.findSome? f = l.findSome? g
  | [], _ => rfl
  | x :: l, h => by
    rw [List.findSome?_cons, List.findSome?_cons, h x List.mem_cons_self,
      findSome?_congr fun y hy => h y (List.mem_cons_of_mem x hy)]

/-- Two programs have the same nodes below a point. -/
def AgreeBelow (n : Nat) (p q : Program) : Prop :=
  ∀ i < n, p[i]? = q[i]?

namespace AgreeBelow

variable {p q r : Program} {m n : Nat}

theorem mono (h : AgreeBelow n p q) (hm : m ≤ n) : AgreeBelow m p q :=
  fun i hi => h i (Nat.lt_of_lt_of_le hi hm)

theorem trans (h : AgreeBelow n p q) (h' : AgreeBelow n q r) : AgreeBelow n p r :=
  fun i hi => (h i hi).trans (h' i hi)

theorem exits_eq (h : AgreeBelow n p q) (c : Char) {point : Nat} (hp : point ≤ n) :
    p.exits c point = q.exits c point := by
  cases point with
  | zero => rfl
  | succ i => rw [exits, exits, h i hp]

theorem exits_le (p : Program) (c : Char) (point : Nat) : ∀ i ∈ p.exits c point, i ≤ point := by
  cases point with
  | zero => intro i hi; cases hi
  | succ i =>
    intro j hj
    rw [exits] at hj
    split at hj
    · split at hj <;> simp at hj; omega
    · split at hj <;> simp at hj; omega
    · cases hj

theorem choose_eq {α : Type} {leaf leaf' : Nat → Option α} (h : AgreeBelow n p q)
    (hl : ∀ i ≤ n, leaf i = leaf' i) (point : Nat) (hp : point ≤ n) :
    p.choose leaf point = q.choose leaf' point := by
  induction point using Nat.strongRecOn with
  | ind point ih =>
    match point with
    | 0 => rw [choose, choose, hl 0 hp]
    | i + 1 =>
      rw [choose, choose, h i hp]
      split
      · next length _ => rw [ih i (by omega) (by omega), ih (i - length) (by omega) (by omega)]
      · exact hl _ hp

theorem extend_eq (h : AgreeBelow n p q) {point : Nat} (hp : point ≤ n) (text : List Char)
    (r : Reading) : p.extend point text r = q.extend point text r := by
  cases point with
  | zero => rfl
  | succ i => simp only [extend, node?, h i hp]

theorem read_eq (h : AgreeBelow n p q) (text : List Char) :
    ∀ point ≤ n, p.read text point = q.read text point := by
  induction text with
  | nil => intro point _; cases point <;> rfl
  | cons c text ih =>
    intro point hp
    cases point with
    | zero => rfl
    | succ i =>
      have he : (q.exits c (i + 1)).findSome? (p.choose (p.read text)) =
          (q.exits c (i + 1)).findSome? (q.choose (q.read text)) :=
        findSome?_congr fun j hj =>
          h.choose_eq ih j (Nat.le_trans (exits_le q c _ j hj) hp)
      rw [read, read, h.exits_eq c hp, he]
      exact congrArg (Option.map · _) (funext fun r => h.extend_eq hp _ r)

theorem readAt_eq (h : AgreeBelow n p q) (text : List Char) {point : Nat} (hp : point ≤ n) :
    p.readAt text point = q.readAt text point :=
  h.choose_eq (h.read_eq text) point hp

theorem push (p : Program) (node : Node) : AgreeBelow p.size (p.push node) p :=
  fun i hi => by rw [Array.getElem?_push_lt hi, Array.getElem?_eq_getElem hi]

end AgreeBelow

/-- From its entry on, a program reads what a search finds. -/
def Means (program : Program) (next : Next) : Prop :=
  ∀ text, (program.readAt text program.size).map Reading.captures = next text

namespace Means

variable {program : Program} {next : Next}

theorem nil : Means #[] Captures.ofRest := by
  intro text
  rw [List.size_toArray, List.length_nil, readAt, choose, read, Reading.ofRest, Option.map_map]
  exact Option.map_id'

/-- A reading of the rest behind the node that was pushed last. -/
theorem readAt_push (program : Program) (node : Node) (text : List Char) :
    readAt (program.push node) text program.size = program.readAt text program.size :=
  (AgreeBelow.push program node).readAt_eq text (Nat.le_refl _)

theorem readAt_push_succ (program : Program) {node : Node} (hn : ∀ length, node ≠ .optional length)
    (text : List Char) :
    readAt (program.push node) text (program.size + 1) =
      read (program.push node) text (program.size + 1) :=
  choose_succ fun length h => hn length (by simpa using h)

theorem literal (h : Means program next) (c : Char) :
    Means (program.push (.literal c)) (Pattern.searchLiteral c next) := by
  intro text
  rw [Array.size_push, readAt_push_succ program (by simp)]
  cases text with
  | nil => rfl
  | cons x text =>
    rw [Pattern.searchLiteral, ← h text, ← readAt_push program (.literal c), read_cons]
    simp only [exits, Array.getElem?_push_size]
    split
    · rw [List.findSome?_cons, List.findSome?_nil]
      cases readAt (program.push (.literal c)) text program.size <;> simp [extend, node?]
    · rfl

theorem value (h : Means program next) (extent : Extent) (name : List Char) :
    Means (program.push (.value extent name)) (Pattern.searchValue extent.admits name next) := by
  intro text
  rw [Array.size_push, readAt_push_succ program (by simp)]
  induction text with
  | nil => rfl
  | cons c text ih =>
    have hr := readAt_push program (.value extent name) text
    rw [← readAt_push_succ program (by simp), Pattern.searchValue] at ih
    rw [Pattern.searchValue, Pattern.searchSome, Pattern.searchMore_eq, ← h text, ← hr, read_cons]
    simp only [exits, Array.getElem?_push_size]
    split
    · rw [List.findSome?_cons, List.findSome?_cons, List.findSome?_nil]
      cases hm : readAt (program.push (.value extent name)) text (program.size + 1) with
      | some r =>
        rw [hm] at ih
        rw [readAt_push_succ program (by simp)] at hm
        have hp : r.point = program.size + 1 := point_of_read hm
        cases hs : Pattern.searchSome extent.admits next text with
        | none => rw [hs] at ih; cases ih
        | some found =>
          obtain ⟨n, q⟩ := found
          rw [hs] at ih
          have hc : r.captures = q.bindFirst name ⟨text, n⟩ := Option.some.inj ih
          simp [extend, node?, hp, hc, Captures.stretch, Captures.bindFirst, Nat.add_comm]
      | none =>
        rw [hm] at ih
        have hs : Pattern.searchSome extent.admits next text = none :=
          Option.map_eq_none_iff.1 ih.symm
        rw [hs]
        cases hq : readAt (program.push (.value extent name)) text program.size with
        | none => rfl
        | some q =>
          have hp : q.point ≠ program.size + 1 := by have := point_le_of_readAt hq; omega
          simp [extend, node?, hp]
    · rfl

theorem group {kept after : Program} {nextKept : Next} (hk : Means kept nextKept)
    (ha : Means after next) (hag : AgreeBelow after.size kept after)
    (hle : after.size ≤ kept.size) :
    Means (kept.push (.optional (kept.size - after.size)))
      fun text => (nextKept text).or (next text) := by
  intro text
  have hn : (kept.push (.optional (kept.size - after.size)))[kept.size]? =
      some (.optional (kept.size - after.size)) := Array.getElem?_push_size
  have hp := AgreeBelow.push kept (.optional (kept.size - after.size))
  rw [Array.size_push, readAt, choose_succ_of_optional hn, ← readAt, ← readAt,
    Nat.sub_sub_self hle, hp.readAt_eq text (Nat.le_refl _), hp.readAt_eq text hle,
    hag.readAt_eq text (Nat.le_refl _), Option.map_or, hk text, ha text]

end Means

theorem agreeBelow_programOnto (p : Pattern) (after : Program) :
    AgreeBelow after.size (p.programOnto after) after ∧
      after.size ≤ (p.programOnto after).size := by
  have push (q : Program) (node : Node) (r : Program)
      (h : AgreeBelow (q.push node).size r (q.push node) ∧ (q.push node).size ≤ r.size) :
      AgreeBelow q.size r q ∧ q.size ≤ r.size := by
    rw [Array.size_push] at h
    exact ⟨(h.1.mono (Nat.le_succ _)).trans (.push q node), by omega⟩
  induction p generalizing after with
  | empty => exact ⟨fun _ _ => rfl, Nat.le_refl _⟩
  | literal before c ih => exact push _ _ _ (ih _)
  | segment before name ih => exact push _ _ _ (ih _)
  | wildcard before ih => exact push _ _ _ (ih _)
  | group before body ihb ih =>
    have h := ih after
    rw [Pattern.programOnto]
    have step (r : Program)
        (hr : AgreeBelow (body.programOnto after).size r (body.programOnto after) ∧
          (body.programOnto after).size ≤ r.size) :
        AgreeBelow after.size r after ∧ after.size ≤ r.size :=
      ⟨(hr.1.mono h.2).trans h.1, Nat.le_trans h.2 hr.2⟩
    split
    · exact step _ (ihb _)
    · exact step _ (push _ _ _ (ihb _))

/-- The program of a pattern reads what the search finds. -/
theorem means_programOnto (p : Pattern) {after : Program} {next : Next} (h : Means after next) :
    Means (p.programOnto after) (p.search next) := by
  induction p generalizing after next with
  | empty => exact h
  | literal before c ih => exact ih (h.literal c)
  | segment before name ih => exact ih (h.value .segment name)
  | wildcard before ih => exact ih (h.value .anything Pattern.wildcardName)
  | group before body ihb ih =>
    have hk := ih h
    rw [Pattern.programOnto, Pattern.search]
    split
    · next hb =>
      refine ihb fun text => ?_
      rw [hk text]
      cases hn : body.search next text with
      | some r => rfl
      | none => rw [Pattern.eq_none_of_search_eq_none hb hn]; rfl
    · have ha := agreeBelow_programOnto body after
      exact ihb (hk.group h ha.1 ha.2)

theorem means_program (p : Pattern) : Means p.program (p.search Captures.ofRest) :=
  p.program_eq_programOnto ▸ means_programOnto p .nil

end Program

end PathRouting
