import PathRouting.Proofs.Table.Listing

/-!
# Tables that are reached are valid

In a valid table the index is the inverse of the routes (`index_iff`), and what is kept of a route
is what its own pattern compiles to (`sound`). Every step keeps the table and its saved copy valid.

On a valid table each operation answers what it answers on the listing of the table, and leaves a
table with the listing that it leaves there (`step_eq`). What is compiled already is seen nowhere,
since a valid route answers just what compiling its pattern anew would (`answer_force`).
-/

namespace PathRouting

variable {α β γ δ : Type}

theorem attempt_fst (source : String) : (attempt source).1 = compile source := rfl

namespace Route

/-- What is kept of a route is what its pattern compiles to. -/
def Sound (r : Route α) : Prop :=
  ∀ c, r.compiled = some c → compile r.pattern = .ok c

/-- What a route is besides what is kept of it. -/
def entry (r : Route α) : String × α :=
  (r.pattern, r.value)

theorem answer_force {r : Route α} (h : r.Sound) : r.force.answer = compile r.pattern := by
  rw [← attempt_fst, force]
  split
  · next c hc => exact (h c hc).symm
  · split <;> next he => rw [he]

theorem entry_force (r : Route α) : r.force.state.entry = r.entry := by
  rw [force]
  split
  · rfl
  · split <;> rfl

theorem sound_force {r : Route α} (h : r.Sound) : r.force.state.Sound := by
  rw [force]
  split
  · exact h
  · split
    · next he =>
      rintro c ⟨⟩
      rw [← attempt_fst, he]
    · exact h

theorem entries_scan (probe : Route α → Compiled → Option β) :
    ∀ routes : List (Route α), (scan probe routes).state.map entry = routes.map entry
  | [] => rfl
  | r :: routes => by
    simp only [scan]
    split
    · rw [List.map_cons, List.map_cons, entry_force]
    · split
      · rw [List.map_cons, List.map_cons, entry_force]
      · rw [List.map_cons, List.map_cons, entry_force, entries_scan probe routes]

theorem sound_scan (probe : Route α → Compiled → Option β) :
    ∀ {routes : List (Route α)}, (∀ r ∈ routes, r.Sound) →
      ∀ r ∈ (scan probe routes).state, r.Sound
  | [], h => h
  | r :: routes, h => by
    have hr : r.force.state.Sound := sound_force (h r List.mem_cons_self)
    have ht : ∀ s ∈ routes, s.Sound := fun s hs => h s (List.mem_cons_of_mem r hs)
    simp only [scan]
    split
    · exact List.forall_mem_cons.2 ⟨hr, ht⟩
    · split
      · exact List.forall_mem_cons.2 ⟨hr, ht⟩
      · exact List.forall_mem_cons.2 ⟨hr, sound_scan probe ht⟩

theorem answer_scan (probe : String → α → Compiled → Option β) :
    ∀ {routes : List (Route α)}, (∀ r ∈ routes, r.Sound) →
      (scan (fun r c => probe r.pattern r.value c) routes).answer =
        Listing.scan probe (routes.map entry)
  | [], _ => rfl
  | r :: routes, h => by
    have ih := answer_scan probe fun s hs => h s (List.mem_cons_of_mem r hs)
    simp only [scan, List.map_cons, Listing.scan, entry]
    rw [answer_force (h r List.mem_cons_self)]
    cases compile r.pattern with
    | error e => rfl
    | ok c =>
      dsimp only
      cases probe r.pattern r.value c with
      | some b => rfl
      | none => exact ih

end Route

namespace Table

/-- The patterns of a table with their values, in the order of priority. -/
def listing (t : Table α) : Listing α :=
  t.routes.toList.map Route.entry

/-- The index is the inverse of the routes, and what is kept of them is right. -/
structure Valid (t : Table α) : Prop where
  index_iff : ∀ (pattern : String) (i : Nat), t.index[pattern]? = some i ↔ t.patterns[i]? = some pattern
  sound : ∀ r ∈ t.routes.toList, r.Sound

theorem map_fst_listing (t : Table α) : t.listing.map Prod.fst = t.patterns := by
  rw [listing, List.map_map, patterns]
  rfl

theorem summary_listing (t : Table α) : Listing.summary t.listing = t.summary := by
  rw [Listing.summary, map_fst_listing]
  simp [summary, size, isEmpty, listing]

theorem valid_empty : (empty : Table α).Valid where
  index_iff pattern i := by simp [empty, patterns]
  sound r hr := by simp [empty] at hr

section Put

variable {t : Table α} {pattern : String} {compiled : Option Compiled}

theorem map_modify {f : α → α} {g : β → β} {k : α → β} (h : ∀ a, k (f a) = g (k a)) :
    ∀ (l : List α) (i : Nat), (l.modify i f).map k = (l.map k).modify i g
  | [], _ => by simp
  | a :: l, 0 => by simp [h]
  | a :: l, i + 1 => by simp [map_modify h l i]

theorem getElem?_concat_eq_some_iff {a b : α} {l : List α} {i : Nat} :
    (l ++ [a])[i]? = some b ↔ l[i]? = some b ∨ l.length = i ∧ a = b := by
  rw [List.getElem?_append]
  split
  · next h => simp [Nat.ne_of_gt h]
  · next h =>
    rw [List.getElem?_singleton, List.getElem?_eq_none (l := l) (by omega)]
    split <;> simp <;> omega

/-- Where the index knows a pattern, that is the only place where it stands. -/
theorem Valid.getElem?_patterns_iff (h : t.Valid) {i : Nat} (hi : t.index[pattern]? = some i)
    (j : Nat) : t.patterns[j]? = some pattern ↔ i = j := by
  rw [← h.index_iff, hi, Option.some.injEq]

theorem Valid.not_mem_patterns (h : t.Valid) (hi : t.index[pattern]? = none) :
    pattern ∉ t.patterns := by
  intro hm
  obtain ⟨i, hm⟩ := List.getElem?_of_mem hm
  rw [← h.index_iff, hi] at hm
  cases hm

theorem listing_put (h : t.Valid) (value : α) :
    (t.put pattern value compiled).listing = Listing.insert pattern value t.listing := by
  rcases hi : t.index[pattern]? with _ | i
  · rw [Listing.insert_of_not_mem value (by rw [map_fst_listing]; exact h.not_mem_patterns hi)]
    simp [put, hi, listing, Route.entry]
  · rw [Listing.insert_eq_modify value (by rw [map_fst_listing]; exact h.getElem?_patterns_iff hi)]
    simp only [put, hi, listing, Array.toList_modify]
    exact map_modify (g := fun e => (e.1, value)) (fun _ => rfl) _ i

theorem patterns_put_of_some {i : Nat} (hi : t.index[pattern]? = some i) (value : α) :
    (t.put pattern value compiled).patterns = t.patterns := by
  simp only [put, hi, patterns, Array.toList_modify]
  have hm := map_modify (k := Route.pattern) (g := id)
    (f := fun r => { r with value, compiled := compiled.or r.compiled }) (fun _ => rfl)
  rw [hm, List.modify_id]

theorem patterns_put_of_none (hi : t.index[pattern]? = none) (value : α) :
    (t.put pattern value compiled).patterns = t.patterns ++ [pattern] := by
  simp [put, hi, patterns]

theorem sound_put (h : t.Valid) (value : α)
    (hc : ∀ c, compiled = some c → compile pattern = .ok c) :
    ∀ r ∈ (t.put pattern value compiled).routes.toList, r.Sound := by
  rcases hi : t.index[pattern]? with _ | i
  · simp only [put, hi, Array.toList_push]
    intro r hr
    rcases List.mem_append.1 hr with hr | hr
    · exact h.sound r hr
    · rw [List.mem_singleton.1 hr]
      exact hc
  · simp only [put, hi, Array.toList_modify]
    intro r hr
    obtain ⟨j, hj⟩ := List.getElem?_of_mem hr
    rw [List.getElem?_modify] at hj
    obtain ⟨s, hs, rfl⟩ := Option.map_eq_some_iff.1 hj
    have hs' : s.Sound := h.sound s (List.mem_of_getElem? hs)
    split
    · next hij =>
      subst hij
      have hp : s.pattern = pattern := by
        have := (h.index_iff pattern i).1 hi
        rw [patterns, List.getElem?_map, hs] at this
        exact Option.some.inj this
      intro c hcs
      rcases Option.or_eq_some_iff.1 hcs with hcs | ⟨-, hcs⟩
      · exact hp ▸ hc c hcs
      · exact hs' c hcs
    · exact hs'

theorem valid_put (h : t.Valid) (value : α)
    (hc : ∀ c, compiled = some c → compile pattern = .ok c) :
    (t.put pattern value compiled).Valid := by
  refine ⟨fun other j => ?_, sound_put h value hc⟩
  rcases hi : t.index[pattern]? with _ | i
  · have hn := h.not_mem_patterns hi
    have hs : t.patterns.length = t.routes.size := by simp [patterns]
    rw [patterns_put_of_none hi, getElem?_concat_eq_some_iff, hs]
    simp only [put, hi, Std.TreeMap.getElem?_insert, Std.compare_eq_iff_eq]
    split
    · next ho =>
      subst ho
      have hj : t.patterns[j]? ≠ some pattern := fun hj => hn (List.mem_of_getElem? hj)
      simp [hj]
    · next ho => simp [h.index_iff, ho]
  · rw [patterns_put_of_some hi, ← h.index_iff]
    simp only [put, hi]

end Put

/-- An operation answers what it answers on the listing, and leaves a valid table with the listing
that it leaves there. -/
structure Refines (o : Outcome (Table α) β) (answer : β) (l : Listing α) : Prop where
  answer_eq : o.answer = answer
  listing_eq : o.state.listing = l
  valid : o.state.Valid

section Operations

variable {t : Table α}

theorem valid_insert (h : t.Valid) (pattern : String) (value : α) :
    (t.insert pattern value).Valid :=
  valid_put h value (by simp)

theorem listing_insert (h : t.Valid) (pattern : String) (value : α) :
    (t.insert pattern value).listing = Listing.insert pattern value t.listing :=
  listing_put h value

theorem refines_tryInsert (h : t.Valid) (pattern : String) (value : α) :
    Refines (t.tryInsert pattern value) (Listing.tryInsert pattern value t.listing).1
      (Listing.tryInsert pattern value t.listing).2 := by
  rw [tryInsert, Listing.tryInsert, ← attempt_fst]
  split
  · next c event hc =>
    rw [hc]
    refine ⟨rfl, listing_put h value, valid_put h value ?_⟩
    rintro c ⟨⟩
    rw [← attempt_fst, hc]
  · next e event he =>
    rw [he]
    exact ⟨rfl, rfl, h⟩

theorem valid_extend : ∀ (routes : List (String × α)) {t : Table α}, t.Valid →
    (t.extend routes).Valid ∧ (t.extend routes).listing = Listing.extend routes t.listing
  | [], _, h => ⟨h, rfl⟩
  | r :: routes, t, h => by
    have ih := valid_extend routes (valid_insert h r.1 r.2)
    rw [listing_insert h] at ih
    exact ih

theorem refines_scan (h : t.Valid) (probe : String → α → Compiled → Option β) :
    Refines (t.scan fun r c => probe r.pattern r.value c) (Listing.scan probe t.listing)
      t.listing := by
  refine ⟨Route.answer_scan probe h.sound, ?_, ⟨fun pattern i => ?_, ?_⟩⟩
  · simp only [scan, Outcome.mapState, listing]
    exact Route.entries_scan _ _
  · rw [← map_fst_listing]
    simp only [scan, Outcome.mapState, listing]
    rw [Route.entries_scan]
    exact (h.index_iff pattern i).trans (by rw [← map_fst_listing, listing])
  · simp only [scan, Outcome.mapState]
    exact Route.sound_scan _ h.sound

theorem refines_compileAll (h : t.Valid) :
    Refines t.compileAll (Listing.compileAll t.listing) t.listing := by
  have hs := refines_scan h fun _ _ _ => (none : Option Unit)
  refine ⟨?_, hs.listing_eq, hs.valid⟩
  rw [Listing.compileAll_eq_scan, ← hs.answer_eq]
  rfl

theorem refines_find (h : t.Valid) (url : String) :
    Refines (t.find url) (Listing.find url t.listing) t.listing := by
  have hs := refines_scan h fun pattern value c =>
    (c.extract url.toList).map fun found =>
      ({ value, url, pattern, params := found.1, query := found.2 } : Match α)
  exact ⟨hs.answer_eq, hs.listing_eq, hs.valid⟩

theorem refines_dispatch (call : α → γ → Params → β) (h : t.Valid) (url : String) (context : γ) :
    Refines (t.dispatch call url context) (Listing.dispatch call url context t.listing)
      t.listing := by
  have hf := refines_find h url
  refine ⟨?_, hf.listing_eq, hf.valid⟩
  rw [Listing.dispatch, ← hf.answer_eq]
  rfl

end Operations

/-- The listings of a table and of the copy that is saved beside it. -/
def listings (s : Session (Table α)) : Session (Listing α) :=
  ⟨s.current.listing, s.saved.listing⟩

/-- A table and its saved copy are valid. -/
structure BothValid (s : Session (Table α)) : Prop where
  current : s.current.Valid
  saved : s.saved.Valid

/-- An operation that replies and sets the table, beside the saved copy. -/
theorem Refines.step {o : Outcome (Table α) δ} {answer : δ} {l : Listing α}
    {s : Session (Table α)} (h : BothValid s) (ho : Refines o answer l) (reply : δ → Reply α β) :
    ((o.map reply).mapState s.set).answer = reply answer ∧
      listings ((o.map reply).mapState s.set).state = (listings s).set l ∧
      BothValid ((o.map reply).mapState s.set).state :=
  ⟨congrArg reply ho.answer_eq, congrArg (Session.mk · _) ho.listing_eq, ho.valid, h.saved⟩

/-- A step replies what it replies on the listings, and leaves valid tables with the listings that
it leaves there. -/
theorem step_eq (call : α → γ → Params → β) {s : Session (Table α)} (h : BothValid s)
    (st : Step α γ) :
    (step call s st).answer = (Listing.step call (listings s) st).1 ∧
      listings (step call s st).state = (Listing.step call (listings s) st).2 ∧
      BothValid (step call s st).state := by
  cases st with
  | insert pattern value =>
    have hl := listing_insert h.current pattern value
    refine ⟨?_, congrArg (Session.mk · _) hl, valid_insert h.current pattern value, h.saved⟩
    exact congrArg Reply.summary ((summary_listing _).symm.trans (congrArg Listing.summary hl))
  | tryInsert pattern value =>
    have ho := refines_tryInsert h.current pattern value
    refine ⟨?_, congrArg (Session.mk · _) ho.listing_eq, ho.valid, h.saved⟩
    have hs := (summary_listing _).symm.trans (congrArg Listing.summary ho.listing_eq)
    exact congr (congrArg Reply.inserted ho.answer_eq) hs
  | extend routes =>
    obtain ⟨hv, hl⟩ := valid_extend routes h.current
    refine ⟨?_, congrArg (Session.mk · _) hl, hv, h.saved⟩
    exact congrArg Reply.summary ((summary_listing _).symm.trans (congrArg Listing.summary hl))
  | clear => exact ⟨rfl, rfl, valid_empty, h.saved⟩
  | save =>
    exact ⟨congrArg Reply.summary (summary_listing _).symm, rfl, h.current, h.current⟩
  | swap => exact ⟨congrArg Reply.summary (summary_listing _).symm, rfl, h.saved, h.current⟩
  | compileAll => exact (refines_compileAll h.current).step h .compiled
  | find url => exact (refines_find h.current url).step h .found
  | dispatch url context => exact (refines_dispatch call h.current url context).step h .dispatched

/-- A run replies what it replies on the listings, and leaves valid tables with the listings that it
leaves there. -/
theorem run_eq (call : α → γ → Params → β) : ∀ (steps : List (Step α γ)) {s : Session (Table α)},
    BothValid s →
      (run call s steps).1.map Prod.fst = (Listing.run call (listings s) steps).1 ∧
        listings (run call s steps).2 = (Listing.run call (listings s) steps).2 ∧
        BothValid (run call s steps).2
  | [], _, h => ⟨rfl, rfl, h⟩
  | first :: steps, s, h => by
    obtain ⟨ha, hl, hv⟩ := step_eq call h first
    obtain ⟨iha, ihl, ihv⟩ := run_eq call steps hv
    rw [hl] at iha ihl
    simp only [run, Listing.run, List.map_cons, ha, iha, ihl]
    exact ⟨trivial, trivial, ihv⟩

/-- A table that a run leads to from a new table. The empty table is a new one without routes. -/
def Reachable (call : α → γ → Params → β) (t : Table α) : Prop :=
  ∃ routes steps, (run call (.start (.ofList routes)) steps).2.current = t

theorem valid_ofList (routes : List (String × α)) : (ofList routes).Valid :=
  (valid_extend routes valid_empty).1

theorem listing_ofList (routes : List (String × α)) :
    (ofList routes).listing = Listing.extend routes [] :=
  (valid_extend routes valid_empty).2

theorem bothValid_start (routes : List (String × α)) : BothValid (.start (ofList routes)) :=
  ⟨valid_ofList routes, valid_ofList routes⟩

theorem listings_start (routes : List (String × α)) :
    listings (.start (ofList routes)) = .start (Listing.extend routes []) := by
  simp only [listings, Session.start, listing_ofList]

theorem Reachable.valid {call : α → γ → Params → β} {t : Table α} (h : Reachable call t) :
    t.Valid := by
  obtain ⟨routes, steps, rfl⟩ := h
  exact (run_eq call steps (bothValid_start routes)).2.2.current

end Table

end PathRouting
