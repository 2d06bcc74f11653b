import PathRouting.Pattern.Matching
import PathRouting.Pattern.Search

/-!
# Matching finds what the search finds

The answer of a front is the first reading of its points, with its position. One character takes it
to the answer of the next front, with the position that the next front remembers
(`Advance.Follows.firstAt_eq`). So a url matches if and only if the search finds something
(`isMatch_eq_isSome_search`), and the trail puts together what it finds (`captures_eq_search`).
-/

namespace PathRouting

/-- The first answer at points, with its position counted from `n`. -/
def firstAt (leaf : Nat → Option Reading) (points : List Nat) (n : Nat) : Option (Nat × Reading) :=
  (points.zipIdx n).findSome? fun (point, i) => (leaf point).map fun r => (i, r)

section FirstAt

variable {leaf : Nat → Option Reading}

theorem firstAt_nil (n : Nat) : firstAt leaf [] n = none := rfl

theorem firstAt_cons (point : Nat) (points : List Nat) (n : Nat) :
    firstAt leaf (point :: points) n =
      ((leaf point).map fun r => (n, r)).or (firstAt leaf points (n + 1)) := by
  rw [firstAt, List.zipIdx_cons, List.findSome?_cons]
  dsimp only
  cases leaf point <;> rfl

/-- An answer stands at its own point. -/
theorem getElem?_of_firstAt (hl : ∀ point r, leaf point = some r → r.point = point)
    {points : List Nat} {n j : Nat} {r : Reading} (h : firstAt leaf points n = some (j, r)) :
    ∃ k, j = n + k ∧ points[k]? = some r.point := by
  induction points generalizing n with
  | nil => cases h
  | cons point points ih =>
    rw [firstAt_cons] at h
    cases hp : leaf point with
    | some q =>
      rw [hp] at h
      cases h
      exact ⟨0, rfl, by rw [hl point _ hp]; rfl⟩
    | none =>
      rw [hp] at h
      obtain ⟨k, rfl, hk⟩ := ih h
      exact ⟨k + 1, by omega, hk⟩

/-- Positions before can be looked up in a list. -/
theorem findSome?_zip_eq (origin : Nat → Nat) {origins points : List Nat} {n : Nat}
    (hs : origins.length = points.length)
    (ho : ∀ k i, origins[k]? = some i → origin (n + k) = i) :
    ((origins.zip points).findSome? fun (i, point) => (leaf point).map fun r => (i, r)) =
      (firstAt leaf points n).map fun (j, r) => (origin j, r) := by
  induction points generalizing origins n with
  | nil => rw [List.zip_nil_right]; rfl
  | cons point points ih =>
    match origins with
    | [] => cases hs
    | i :: origins =>
      rw [List.zip_cons_cons, List.findSome?_cons, firstAt_cons, Option.map_or,
        ← ih (Nat.succ.inj hs) fun k i hk => by rw [Nat.add_assoc, Nat.add_comm 1]; exact ho _ _ hk,
        ← ho 0 i rfl]
      dsimp only
      cases leaf point <;> rfl

end FirstAt

variable {program : Program}

/-- Where the rest of a url can stand behind a path, the first reading is behind a better point, or
ends at the first point 0. -/
theorem firstAt_ending {text : List Char} {q : Captures} (h : Captures.ofRest text = some q)
    (points : List Nat) (n : Nat) :
    firstAt (program.read text) points n =
      (firstAt (program.read text) (points.takeWhile (· != 0)) n).or
        ((points.findIdx? (· == 0)).map fun i => (n + i, ⟨0, q⟩)) := by
  induction points generalizing n with
  | nil => rfl
  | cons point points ih =>
    rw [firstAt_cons, ih]
    cases point with
    | zero =>
      have hr : program.read text 0 = some ⟨0, q⟩ := by
        rw [Program.read, Reading.ofRest, h]; rfl
      rw [hr, List.findIdx?_cons]
      rfl
    | succ i =>
      rw [List.takeWhile_cons_of_pos rfl, firstAt_cons, Option.or_assoc, List.findIdx?_cons]
      simp [Nat.add_assoc, Nat.add_comm 1, Function.comp_def]

theorem firstAt_takeWhile_nil (points : List Nat) (n : Nat) :
    firstAt (program.read []) (points.takeWhile (· != 0)) n = none := by
  induction points generalizing n with
  | nil => rfl
  | cons point points ih =>
    cases point with
    | zero => rfl
    | succ i => rw [List.takeWhile_cons_of_pos rfl, firstAt_cons, ih]; rfl

/-- The readings behind a character, at points that are left. -/
theorem findSome?_zipIdx_exits (c : Char) (text : List Char) (point : Nat → Nat)
    {points : List Nat} (hp : c = '?' → 0 ∉ points) {n : Nat}
    (hn : ∀ k i, points[k]? = some i → point (n + k) = i) :
    firstAt (program.read (c :: text)) points n =
      ((points.zipIdx n).findSome? fun (p, i) =>
        ((program.exits c p).findSome? (program.choose (program.read text))).map
          fun r => (i, r)).map fun (i, r) => (i, program.extend (point i) (c :: text) r) := by
  induction points generalizing n with
  | nil => rfl
  | cons p points ih =>
    rw [firstAt_cons, ih (fun h hm => hp h (List.mem_cons_of_mem _ hm))
      fun k i hk => by rw [Nat.add_assoc, Nat.add_comm 1]; exact hn _ _ hk]
    rw [List.zipIdx_cons, List.findSome?_cons]
    dsimp only
    cases p with
    | zero =>
      have hr : program.read (c :: text) 0 = none := by
        have hc : c ≠ '?' := fun h => hp h List.mem_cons_self
        simp [Program.read, Reading.ofRest, Captures.ofRest, hc]
      rw [hr]
      rfl
    | succ i =>
      have h0 : point n = i + 1 := hn 0 _ rfl
      rw [Program.read]
      cases (program.exits c (i + 1)).findSome? (program.choose (program.read text)) with
      | none => rfl
      | some r => simp [h0]

theorem Front.zero_notMem_live (front : Front) {c : Char} (hc : c = '?') :
    0 ∉ (front.live c).toList := by
  rw [live, if_pos hc, Array.toList_takeWhile]
  intro h
  simpa using List.all_eq_true.1 List.all_takeWhile _ h

/-- The answers of two fronts, of which one follows the other. -/
theorem Advance.Follows.firstAt_eq {next : Advance} {front : Front} {c : Char}
    (h : next.Follows program front c) (text : List Char) :
    firstAt (program.read (c :: text)) (front.live c).toList 0 =
      (firstAt (program.read text) next.front.points.toList 0).map fun (j, r) =>
        (next.origins.getD j 0,
          program.extend ((front.live c).getD (next.origins.getD j 0) 0) (c :: text) r) := by
  have hf := h.first_eq (program.read text)
  rw [firstOf, findSome?_zip_eq (n := 0) (fun j => next.origins.getD j 0)
    (by simpa using h.size_eq)
    fun k i hk => by simp_all [Array.getD_eq_getD_getElem?]] at hf
  rw [findSome?_zipIdx_exits c text (fun i => (front.live c).getD i 0) front.zero_notMem_live
    fun k i hk => by simp_all [Array.getD_eq_getD_getElem?], ← Front.firstExit, ← hf,
    Option.map_map]
  rfl

/-- The answer of the end of the path, if the text behind can be its rest. -/
def Front.endAnswer (front : Front) (text : List Char) : Option (Nat × Reading) :=
  (Captures.ofRest text).bind fun q =>
    (front.points.toList.findIdx? (· == 0)).map fun i => (i, ⟨0, q⟩)

/-- Behind the points that are left, the path can end. -/
theorem Front.firstAt_eq_or (front : Front) (c : Char) (text : List Char) :
    firstAt (program.read (c :: text)) front.points.toList 0 =
      (firstAt (program.read (c :: text)) (front.live c).toList 0).or
        (front.endAnswer (c :: text)) := by
  unfold endAnswer
  by_cases hc : c = '?'
  · have hq : Captures.ofRest (c :: text) = some ⟨[], some text⟩ := if_pos hc
    rw [firstAt_ending hq, live, if_pos hc, Array.toList_takeWhile, hq]
    simp
  · have hq : Captures.ofRest (c :: text) = none := if_neg hc
    rw [live, if_neg hc, hq, Option.bind_none, Option.or_none]

theorem Front.firstAt_nil (front : Front) :
    firstAt (program.read []) front.points.toList 0 = front.endAnswer [] := by
  rw [firstAt_ending rfl, firstAt_takeWhile_nil, Option.none_or, endAnswer]
  simp [Captures.ofRest]

theorem Front.isSome_endAnswer (front : Front) (text : List Char) :
    (front.endAnswer text).isSome =
      ((Captures.ofRest text).isSome && front.points.contains 0) := by
  have h : (front.points.toList.findIdx? (· == 0)).isSome = front.points.contains 0 := by
    rw [List.findIdx?_isSome, ← Array.contains_toList, List.contains_eq_any_beq]
    exact congrArg _ (funext fun i => Bool.beq_comm)
  unfold endAnswer
  cases Captures.ofRest text with
  | none => rfl
  | some q => rw [Option.bind_some, Option.isSome_map, h]; rfl

theorem Growth.map_snd_first (g : Growth) (leaf : Nat → Option Reading) :
    (g.first leaf).map (·.2) = (firstAt leaf g.points.toList 0).map (·.2) := by
  rw [first, firstOf, findSome?_zip_eq (n := 0) (fun j => g.origins.getD j 0)
    (by simpa using g.size_eq) fun k i hk => by simp_all [Array.getD_eq_getD_getElem?],
    Option.map_map]
  rfl

/-- The first reading of the front at a point. -/
theorem map_snd_frontAt (program : Program) (point : Nat) (text : List Char) :
    (firstAt (program.read text) (program.frontAt point).points.toList 0).map (·.2) =
      program.readAt text point := by
  have h0 (i : Nat) : (Growth.start .empty 0).Covers program i :=
    fun _ _ j _ hj => by rw [Growth.start, Seen.has_clear] at hj; cases hj
  have e := (entered_enter point _ (h0 _)).first_eq (program.read text)
  have h := congrArg (Option.map (·.2)) e
  rw [Growth.map_snd_first] at h
  refine h.trans ?_
  change ((none : Option (Nat × Reading)).or _).map _ = _
  rw [Option.none_or, Option.map_map]
  exact Option.map_id'

theorem map_captures_frontAt (program : Program) (point : Nat) (text : List Char) :
    (firstAt (program.read text) (program.frontAt point).points.toList 0).map
        (fun a => a.2.captures) =
      (program.readAt text point).map Reading.captures := by
  rw [← map_snd_frontAt, Option.map_map]
  rfl

/-- A front whose point is a literal one. -/
structure Front.IsLiteral (front : Front) (program : Program) (point : Nat) : Prop where
  points_eq : front.points = #[point]
  node_eq : ∃ x, program.node? point = some (.literal x)

theorem Front.IsLiteral.firstAt_eq {front : Front} {point : Nat}
    (h : front.IsLiteral program point) (text : List Char) :
    firstAt (program.read text) front.points.toList 0 =
      (program.readAt text point).map fun r => (0, r) := by
  obtain ⟨x, hx⟩ := h.node_eq
  rw [h.points_eq, Program.readAt_of_literal hx, firstAt_cons,
    PathRouting.firstAt_nil, Option.or_none]

theorem Front.skip_eq (front : Front) (program : Program) (text : List Char) :
    front.skip program text = .stay ∨ ∃ point, front.IsLiteral program point ∧
      front.skip program text =
        match program.skip point text with
        | none => .fail
        | some (target, rest) => .pass target rest := by
  obtain ⟨code, points⟩ := front
  by_cases hs : points.size = 1
  · obtain ⟨point, rfl⟩ := Array.size_eq_one_iff.1 hs
    have h : skip ⟨code, #[point]⟩ program text =
        match program.skip point text with
        | none => .fail
        | some (target, rest) => if target = point then .stay else .pass target rest := rfl
    rw [h]
    cases hk : program.skip point text with
    | none =>
      exact .inr ⟨point, ⟨rfl, Program.literal_of_skip (by rw [hk]; simp)⟩, by rw [hk]⟩
    | some next =>
      obtain ⟨target, rest⟩ := next
      dsimp only
      split
      · exact .inl rfl
      · next ht =>
        have hn : program.skip point text ≠ some (point, text) := by rw [hk]; simp [ht]
        exact .inr ⟨point, ⟨rfl, Program.literal_of_skip hn⟩, by rw [hk]⟩
  · exact .inl (if_neg hs)

theorem accepts_eq (fuel : Nat) : ∀ (text : List Char) (memo : Memo program) (front : Front),
    text.length ≤ fuel → program.accepts fuel text memo front =
      (firstAt (program.read text) front.points.toList 0).isSome := by
  have nil (fuel : Nat) (memo : Memo program) (front : Front) :
      program.accepts fuel [] memo front =
        (firstAt (program.read []) front.points.toList 0).isSome := by
    rw [Front.firstAt_nil, Front.isSome_endAnswer, Program.accepts.eq_def]
    rfl
  induction fuel with
  | zero =>
    intro text memo front hl
    rw [List.length_eq_zero_iff.1 (Nat.le_zero.1 hl), nil]
  | succ fuel ih =>
    intro text memo front hl
    match text with
    | [] => exact nil _ _ _
    | c :: text =>
      replace hl : text.length ≤ fuel := Nat.le_of_succ_le_succ hl
      rw [Program.accepts, Front.firstAt_eq_or, Option.isSome_or, Front.isSome_endAnswer]
      have hq : (Captures.ofRest (c :: text)).isSome = decide (c = '?') := by
        rw [Captures.ofRest]; split <;> simp_all
      rw [hq]
      split
      · next he => simp [Array.isEmpty_iff.1 he, Front.live, firstAt]
      · split
        · next hc => rw [hc, Bool.or_true]
        · next hc =>
          obtain ⟨next, memo⟩ := memo.advance front c
          rw [next.2.firstAt_eq, Option.isSome_map, Bool.eq_false_iff.2 hc, Bool.or_false]
          dsimp only
          rcases next.1.front.skip_eq program text with hs | ⟨point, hp, hs⟩
          · rw [hs, ih _ _ _ hl]
          · rw [hs, hp.firstAt_eq, Option.isSome_map]
            have hm := congrArg Option.isSome (program.map_captures_skip point text)
            rw [Option.isSome_map] at hm
            cases hk : program.skip point text with
            | none => rw [hm, hk]; rfl
            | some next =>
              obtain ⟨target, rest⟩ := next
              dsimp only
              rw [hm, hk, ih _ _ _ (Nat.le_trans (Program.length_le_of_skip hk) hl),
                Option.bind_some]
              dsimp only
              rw [← map_captures_frontAt, Option.isSome_map]

/-- A past after a character puts before a reading what the program extends it by. -/
theorem Past.finish_move (program : Program) (past : Past) (text : List Char) (point : Nat)
    (r : Reading) :
    (past.move program text point r.point).finish r.captures =
      past.finish (program.extend point text r).captures := by
  unfold move Program.extend
  dsimp only
  rcases program.node? point with _ | _ | ⟨extent, name⟩ | _
  · rfl
  · rfl
  · rcases past with _ | _ | ⟨before, source, taken⟩ <;> dsimp only
    · split <;> rfl
    · split <;> rfl
    · split
      · rw [finish, finish, Captures.stretch_stretch]
      · rfl
  · rfl

namespace Trail

theorem back_eq (pasts : Array Past) (steps : List Step) (i : Nat) (moves : List Move) :
    back program pasts steps i moves =
      moves.foldl (Past.follow program) (back program pasts steps i []) := by
  induction steps generalizing i moves with
  | nil => rfl
  | cons s steps ih =>
    rw [back, back]
    split
    · next k target _ _ => rw [ih k (_ :: moves), ih k [_]]; rfl
    · rfl

theorem past_push {trail : Trail} {s : Step} {i k target : Nat} (hk : s.next.origins[i]? = some k)
    (ht : s.next.front.points[i]? = some target) :
    (trail.push s).past program i =
      (trail.past program k).move program s.text (s.points.getD k 0) target := by
  rw [past, push, back, hk, ht]
  dsimp only
  rw [back_eq]
  rfl

theorem past_settle (trail : Trail) (i : Nat) :
    (trail.settle program).past program i = trail.past program i := by
  obtain ⟨pasts, steps⟩ := trail
  change (steps.foldr (Step.pasts program) pasts).getD i .start = back program pasts steps i []
  induction steps generalizing i with
  | nil => rfl
  | cons s steps ih =>
    rw [List.foldr_cons, Step.pasts, Array.getD_eq_getD_getElem?, Array.getElem?_zipWith, back]
    cases s.next.origins[i]? with
    | none => rfl
    | some k =>
      cases s.next.front.points[i]? with
      | none => rfl
      | some target => dsimp only; rw [back_eq, ← ih k]; rfl

end Trail

/-- The captures of an answer. -/
def Trail.captures (program : Program) (trail : Trail) (answer : Nat × Reading) : Captures :=
  (trail.past program answer.1).finish answer.2.captures

/-- The captures of the answer of the end of the path. -/
theorem Front.finish_ending? (front : Front) (trail : Trail) (text : List Char) :
    (front.ending? trail text).map (Ending.finish program) =
      (front.endAnswer text).map (trail.captures program) := by
  obtain ⟨code, ⟨points⟩⟩ := front
  unfold ending? endAnswer
  rw [List.findIdx?_toArray]
  cases Captures.ofRest text with
  | none => rfl
  | some q => rw [Option.bind_some, Option.map_map, Option.map_map]; rfl

/-- What is bound behind a step, from what was bound before it. -/
theorem Trail.map_captures_push {front : Front} {c : Char} {next : Advance}
    (h : next.Follows program front c) (trail : Trail) (text : List Char) :
    (firstAt (program.read text) next.front.points.toList 0).map
        ((trail.push ⟨c :: text, front.live c, next⟩).captures program) =
      (firstAt (program.read (c :: text)) (front.live c).toList 0).map
        (trail.captures program) := by
  rw [h.firstAt_eq, Option.map_map]
  cases hf : firstAt (program.read text) next.front.points.toList 0 with
  | none => rfl
  | some answer =>
    obtain ⟨j, r⟩ := answer
    obtain ⟨k, rfl, ht⟩ := getElem?_of_firstAt (fun _ _ => Program.point_of_read) hf
    rw [Array.getElem?_toList] at ht
    rw [Nat.zero_add]
    have hs : k < next.origins.size := by
      rw [h.size_eq]; exact (Array.getElem?_eq_some_iff.1 ht).1
    obtain ⟨i, hk⟩ : ∃ i, next.origins[k]? = some i := ⟨_, Array.getElem?_eq_getElem hs⟩
    have hi : next.origins.getD k 0 = i := by rw [Array.getD_eq_getD_getElem?, hk]; rfl
    have hp : (trail.push ⟨c :: text, front.live c, next⟩).past program k = _ := past_push hk ht
    simp only [Option.map_some, Function.comp, hi, captures]
    rw [hp]
    exact congrArg some ((trail.past program i).finish_move program _ _ r)

theorem Trail.captures_settle (trail : Trail) :
    (trail.settle program).captures program = trail.captures program :=
  funext fun answer => by rw [captures, captures, past_settle]

/-- Nothing is bound where literal nodes are passed. -/
theorem Trail.map_captures_pass {front : Front} {point target : Nat} {text rest : List Char}
    (h : front.IsLiteral program point) (hk : program.skip point text = some (target, rest))
    (trail : Trail) :
    (firstAt (program.read rest) (program.frontAt target).points.toList 0).map
        ((trail.push ⟨text, front.points, ⟨program.frontAt target,
          .replicate (program.frontAt target).points.size 0⟩⟩).captures program) =
      (firstAt (program.read text) front.points.toList 0).map (trail.captures program) := by
  have hm := program.map_captures_skip point text
  rw [hk, Option.bind_some] at hm
  dsimp only at hm
  have hf : (firstAt (program.read text) front.points.toList 0).map (trail.captures program) =
      ((program.readAt text point).map Reading.captures).map (trail.past program 0).finish := by
    rw [h.firstAt_eq, Option.map_map, Option.map_map]
    rfl
  rw [hf, hm, ← map_captures_frontAt, Option.map_map]
  cases ha : firstAt (program.read rest) (program.frontAt target).points.toList 0 with
  | none => rfl
  | some answer =>
    obtain ⟨j, r⟩ := answer
    obtain ⟨k, rfl, ht⟩ := getElem?_of_firstAt (fun _ _ => Program.point_of_read) ha
    rw [Array.getElem?_toList] at ht
    have ho : (Array.replicate (program.frontAt target).points.size 0)[k]? = some 0 := by
      rw [Array.getElem?_replicate, if_pos (Array.getElem?_eq_some_iff.1 ht).1]
    obtain ⟨x, hx⟩ := h.node_eq
    simp only [Option.map_some, Function.comp, captures, Nat.zero_add]
    rw [past_push ho ht, Past.move]
    have hp : front.points.getD 0 0 = point := by rw [h.points_eq]; rfl
    dsimp only
    rw [hp, hx]

theorem trace_eq (fuel : Nat) : ∀ (text : List Char) (memo : Memo program) (front : Front)
    (trail : Trail) (aside : Option Ending), text.length ≤ fuel →
    (program.trace fuel text memo front trail aside).map (Ending.finish program) =
      ((firstAt (program.read text) front.points.toList 0).map (trail.captures program)).or
        (aside.map (Ending.finish program)) := by
  have nil (fuel : Nat) (memo : Memo program) (front : Front) (trail : Trail)
      (aside : Option Ending) :
      (program.trace fuel [] memo front trail aside).map (Ending.finish program) =
        ((firstAt (program.read []) front.points.toList 0).map (trail.captures program)).or
          (aside.map (Ending.finish program)) := by
    rw [Front.firstAt_nil, ← Front.finish_ending?, ← Option.map_or, Program.trace.eq_def]
  induction fuel with
  | zero =>
    intro text memo front trail aside hl
    rw [List.length_eq_zero_iff.1 (Nat.le_zero.1 hl), nil]
  | succ fuel ih =>
    intro text memo front trail aside hl
    match text with
    | [] => exact nil _ _ _ _ _
    | c :: text =>
      replace hl : text.length ≤ fuel := Nat.le_of_succ_le_succ hl
      rw [Program.trace]
      split
      · next he => rw [Array.isEmpty_iff.1 he]; rfl
      · rw [Front.firstAt_eq_or, Option.map_or, Option.or_assoc, ← Front.finish_ending?,
          ← Option.map_or]
        generalize (front.ending? trail (c :: text)).or aside = aside
        obtain ⟨next, memo'⟩ := memo.advance front c
        dsimp only
        rw [← Trail.map_captures_push next.2 trail text]
        generalize trail.push ⟨c :: text, front.live c, next.1⟩ = trail
        have settled (b : Prop) [Decidable b] :
            (if b then trail else trail.settle program).captures program =
              trail.captures program := by
          split
          · rfl
          · exact trail.captures_settle
        rw [← settled (memo'.age = memo.age)]
        generalize (if memo'.age = memo.age then trail else trail.settle program) = trail
        rcases next.1.front.skip_eq program text with hs | ⟨point, hp, hs⟩
        · rw [hs, ih _ _ _ _ _ hl]
        · rw [hs]
          cases hk : program.skip point text with
          | none =>
            have hm := program.map_captures_skip point text
            rw [hk, Option.bind_none, Option.map_eq_none_iff] at hm
            rw [hp.firstAt_eq, hm]
            rfl
          | some found =>
            obtain ⟨target, rest⟩ := found
            dsimp only
            rw [ih _ _ _ _ _ (Nat.le_trans (Program.length_le_of_skip hk) hl),
              Trail.map_captures_pass hp hk]

/-- A url matches if and only if the search finds something. -/
theorem isMatch_eq_isSome_search (p : Pattern) (url : List Char) :
    p.program.isMatch url = (p.search Captures.ofRest url).isSome := by
  rw [Program.isMatch, ← Program.means_program p url, Program.map_captures_skip]
  cases hk : p.program.skip p.program.size url with
  | none => rfl
  | some next =>
    obtain ⟨target, rest⟩ := next
    rw [Option.bind_some]
    dsimp only
    rw [← map_captures_frontAt, Option.isSome_map, accepts_eq _ _ _ _ (Nat.le_refl _)]

/-- A match is the one that the search finds. -/
theorem captures_eq_search (p : Pattern) (url : List Char) :
    p.program.captures url = p.search Captures.ofRest url := by
  rw [Program.captures, isMatch_eq_isSome_search]
  split
  · rw [← Program.means_program p url, Program.map_captures_skip]
    cases hk : p.program.skip p.program.size url with
    | none => rfl
    | some next =>
      obtain ⟨target, rest⟩ := next
      rw [Option.bind_some]
      dsimp only
      rw [← map_captures_frontAt, trace_eq _ _ _ _ _ _ (Nat.le_refl _), Option.map_none,
        Option.or_none]
      rfl
  · next h => rw [Option.not_isSome_iff_eq_none.1 h]

end PathRouting
