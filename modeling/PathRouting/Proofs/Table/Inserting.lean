import PathRouting.Proofs.Table.FirstMatch
import PathRouting.Proofs.Table.Index
import PathRouting.Proofs.Table.Lazy

/-!
# An insertion changes only what it wins

A new pattern stands behind all others, so it answers only where none of them does
(`find_insert_of_notMem`). A pattern that is present keeps its place, so a lookup finds what it found
before, and only a match of that pattern has the new value (`find_insert_of_mem`). Both are seen on
the listing, where nothing is compiled ahead; so inserting a pattern that compiles is the same
whether it is compiled at once or later.
-/

namespace PathRouting

variable {α β γ : Type}

/-- What a pattern by itself answers for a url. -/
def outcomeOf (url pattern : String) (value : α) : Except CompileError (Option (Match α)) :=
  (compile pattern).map fun c => (c.extract url.toList).map fun found =>
    { value, url, pattern, params := found.1, query := found.2 }

/-- The match with a new value, if it is one of the pattern. -/
def Match.revalue (pattern : String) (value : α) (m : Match α) : Match α :=
  if m.pattern = pattern then { m with value } else m

namespace Listing

variable {url pattern : String}

theorem find_append (url : String) (others : Listing α) : ∀ l : Listing α,
    find url (l ++ others) =
      match find url l with
      | .ok none => find url others
      | answer => answer
  | [] => rfl
  | e :: l => by
    rw [List.cons_append]
    rcases hc : compile e.1 with error | c
    · simp only [find_cons_of_error hc]
    · rcases hx : c.extract url.toList with _ | found
      · simp only [find_cons_of_none hc hx, find_append url others l]
      · simp only [find_cons_of_some hc hx]

theorem find_singleton (url pattern : String) (value : α) :
    find url [(pattern, value)] = outcomeOf url pattern value := by
  rw [outcomeOf]
  rcases hc : compile pattern with error | c
  · exact find_cons_of_error (e := (pattern, value)) hc []
  · rcases hx : c.extract url.toList with _ | found
    · rw [find_cons_of_none (e := (pattern, value)) hc hx, Except.map, hx]
      rfl
    · rw [find_cons_of_some (e := (pattern, value)) hc hx, Except.map, hx]
      rfl

/-- A pattern that is new answers where no other one does. -/
theorem find_insert_of_notMem (value : α) {l : Listing α} (h : pattern ∉ l.map Prod.fst) :
    find url (insert pattern value l) =
      match find url l with
      | .ok none => outcomeOf url pattern value
      | answer => answer := by
  rw [insert_of_not_mem value h, find_append, find_singleton]

theorem mem_of_find {m : Match α} : ∀ {l : Listing α}, find url l = .ok (some m) →
    m.pattern ∈ l.map Prod.fst
  | [], h => by cases h
  | e :: l, h => by
    rw [List.map_cons]
    rcases hc : compile e.1 with error | c
    · rw [find_cons_of_error hc] at h
      cases h
    · rcases hx : c.extract url.toList with _ | found
      · rw [find_cons_of_none hc hx] at h
        exact List.mem_cons_of_mem e.1 (mem_of_find h)
      · rw [find_cons_of_some hc hx] at h
        cases h
        exact List.mem_cons_self

theorem map_revalue_find (value : α) {l : Listing α} (h : pattern ∉ l.map Prod.fst) :
    (find url l).map (Option.map (Match.revalue pattern value)) = find url l := by
  rcases hf : find url l with error | _ | m
  · rfl
  · rfl
  · have hne : m.pattern ≠ pattern := fun he => h (he ▸ mem_of_find hf)
    simp [Except.map, Match.revalue, hne]

/-- A pattern that is present keeps its place, and its matches have the new value. -/
theorem find_insert_of_mem (value : α) : ∀ {l : Listing α}, (l.map Prod.fst).Nodup →
    pattern ∈ l.map Prod.fst →
      find url (insert pattern value l) =
        (find url l).map (Option.map (Match.revalue pattern value))
  | [], _, h => by cases h
  | e :: l, hn, h => by
    obtain ⟨hp, hn⟩ := List.nodup_cons.1 hn
    rw [insert]
    split
    · next he =>
      subst he
      rcases hc : compile e.1 with error | c
      · rw [find_cons_of_error hc, find_cons_of_error (e := (e.1, value)) hc]
        rfl
      · rcases hx : c.extract url.toList with _ | found
        · rw [find_cons_of_none hc hx, find_cons_of_none (e := (e.1, value)) hc hx,
            map_revalue_find value hp]
        · rw [find_cons_of_some hc hx, find_cons_of_some (e := (e.1, value)) hc hx]
          simp [Except.map, Match.revalue]
    · next he =>
      have hm : pattern ∈ l.map Prod.fst := (List.mem_cons.1 h).resolve_left (Ne.symm he)
      rcases hc : compile e.1 with error | c
      · simp only [find_cons_of_error hc, Except.map]
      · rcases hx : c.extract url.toList with _ | found
        · simp only [find_cons_of_none hc hx, find_insert_of_mem value hn hm]
        · simp [find_cons_of_some hc hx, Except.map, Match.revalue, he]

end Listing

namespace Table

variable {t : Table α}

/-- An insertion that compiles at once leaves the listing that any insertion leaves. -/
theorem Valid.listing_tryInsert (h : t.Valid) {pattern : String} {value : α}
    (hok : (t.tryInsert pattern value).answer = .ok ()) :
    (t.tryInsert pattern value).state.listing = (t.insert pattern value).listing := by
  have ho := refines_tryInsert h pattern value
  rw [ho.answer_eq, Listing.tryInsert] at hok
  rw [ho.listing_eq, listing_insert h, Listing.tryInsert]
  cases hc : compile pattern with
  | error e =>
    rw [hc] at hok
    cases hok
  | ok c => rfl

/-- Inserting a new pattern leaves the matches and errors of lookups and answers where there was
nothing; inserting a pattern that is present changes the value of its own matches. An insertion that
compiles at once, if it succeeds, cannot be told from one that does not. -/
theorem insertion_frames (call : α → γ → Params → β) {t : Table α} (h : t.Reachable call)
    (pattern : String) (value : α) :
    (pattern ∉ t.patterns → ∀ url,
      (∀ m, (t.find url).answer = .ok (some m) →
        ((t.insert pattern value).find url).answer = .ok (some m)) ∧
      (∀ e, (t.find url).answer = .error e →
        ((t.insert pattern value).find url).answer = .error e) ∧
      ((t.find url).answer = .ok none →
        ((t.insert pattern value).find url).answer = outcomeOf url pattern value)) ∧
    (pattern ∈ t.patterns → ∀ url,
      (∀ m, (t.find url).answer = .ok (some m) →
        ((t.insert pattern value).find url).answer = .ok (some (m.revalue pattern value))) ∧
      (∀ e, (t.find url).answer = .error e →
        ((t.insert pattern value).find url).answer = .error e) ∧
      ((t.find url).answer = .ok none →
        ((t.insert pattern value).find url).answer = .ok none)) ∧
    ((t.tryInsert pattern value).answer = .ok () →
      (∀ url, ((t.tryInsert pattern value).state.find url).answer =
        ((t.insert pattern value).find url).answer) ∧
      ∀ saved : Table α, saved.Reachable call → ∀ steps : List (Step α γ),
        (run call ⟨(t.tryInsert pattern value).state, saved⟩ steps).1.map Prod.fst =
          (run call ⟨t.insert pattern value, saved⟩ steps).1.map Prod.fst) := by
  have hv := h.valid
  have hi := valid_insert hv pattern value
  have hfind : ∀ url, ((t.insert pattern value).find url).answer =
      Listing.find url (Listing.insert pattern value t.listing) := fun url => by
    rw [(refines_find hi url).answer_eq, listing_insert hv]
  rw [← map_fst_listing]
  refine ⟨fun hp url => ?_, fun hp url => ?_, fun hok => ?_⟩
  · rw [hfind, (refines_find hv url).answer_eq, Listing.find_insert_of_notMem value hp]
    refine ⟨fun m hm => ?_, fun e he => ?_, fun hn => ?_⟩
    · rw [hm]
    · rw [he]
    · rw [hn]
  · have hnodup := hv.nodup_patterns
    rw [← map_fst_listing] at hnodup
    rw [hfind, (refines_find hv url).answer_eq, Listing.find_insert_of_mem value hnodup hp]
    refine ⟨fun m hm => ?_, fun e he => ?_, fun hn => ?_⟩
    · rw [hm]
      rfl
    · rw [he]
      rfl
    · rw [hn]
      rfl
  · have hl := hv.listing_tryInsert hok
    have hs := (refines_tryInsert hv pattern value).valid
    refine ⟨fun url => ?_, fun saved hsaved steps => ?_⟩
    · rw [(refines_find hs url).answer_eq, (refines_find hi url).answer_eq, hl]
    · refine replies_eq_of_listings_eq call ⟨hs, hsaved.valid⟩ ⟨hi, hsaved.valid⟩ ?_ steps
      simp only [listings, hl]

theorem insertion_frames_revalued :
    let t : Table Nat := ofList [("/:x", 1)]
    ((t.insert "/:x" 3).find "/b?q").answer =
        .ok (some ⟨3, "/b?q", "/:x", ⟨[("x", "b")]⟩, some "q"⟩) ∧
      ((t.insert "/c)" 3).find "/c/d").answer = .error ⟨"/c)", .fault .unbalancedGroup⟩ ∧
      (run (fun value (_ : Unit) _ => value) ⟨(t.tryInsert "/:x" 3).state, t⟩
        [.find "/b", .swap, .find "/b"]).1.map Prod.fst =
        (run (fun value (_ : Unit) _ => value) ⟨t.insert "/:x" 3, t⟩
          [.find "/b", .swap, .find "/b"]).1.map Prod.fst := by
  intro t
  have h : t.Reachable fun value (_ : Unit) _ => value := ⟨[("/:x", 1)], [], rfl⟩
  obtain ⟨c, hc, hb, hd⟩ : ∃ c, compile "/:x" = .ok c ∧
      c.extract "/b?q".toList = some (⟨[("x", "b")]⟩, some "q") ∧ c.extract "/c/d".toList = none :=
    ⟨_, rfl, by decide +kernel, by decide +kernel⟩
  have hfind : ∀ url, (t.find url).answer = Listing.find url [("/:x", 1)] := fun url =>
    (refines_find h.valid url).answer_eq
  obtain ⟨hnew, -, -⟩ := insertion_frames _ h "/c)" 3
  obtain ⟨-, hold, htry⟩ := insertion_frames _ h "/:x" 3
  refine ⟨?_, ?_, (htry rfl).2 t h _⟩
  · have hm := (hold (by decide +kernel) "/b?q").1 _
      ((hfind _).trans (Listing.find_cons_of_some (e := ("/:x", 1)) hc hb []))
    rwa [Match.revalue, if_pos rfl] at hm
  · refine (hnew (by decide +kernel) "/c/d").2.2 ((hfind _).trans ?_)
    exact Listing.find_cons_of_none (e := ("/:x", 1)) hc hd []

end Table

end PathRouting
