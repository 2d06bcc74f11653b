import PathRouting.Compiled.Exact
import PathRouting.Proofs.Table.Valid

/-!
# The first match wins

Two positions decide what a lookup answers: that of the first pattern that does not compile, and
that of the first pattern that compiles and matches the url. The smaller one gives the answer
(`find_cases`), and what stands behind it is never looked at. Compiling all patterns stops at the
first of the two positions alone (`compileAll_cases`), so a lookup that fails does so with the error
that compiling all patterns reports.

Once all patterns of a table compile, nothing fails on it as long as no other pattern is put into it
(`error?_run`).
-/

namespace PathRouting

variable {α β γ : Type}

def compiles (pattern : String) : Bool :=
  (compile pattern).isOk

/-- Whether a pattern compiles and matches a url. -/
def accepts (url pattern : String) : Bool :=
  match compile pattern with
  | .ok c => c.isMatch url
  | .error _ => false

theorem compiles_of_ok {pattern : String} {c : Compiled} (h : compile pattern = .ok c) :
    compiles pattern = true := by
  rw [compiles, h]
  rfl

theorem compiles_of_error {pattern : String} {e : CompileError} (h : compile pattern = .error e) :
    compiles pattern = false := by
  rw [compiles, h]
  rfl

theorem accepts_of_error {pattern : String} {e : CompileError} (h : compile pattern = .error e)
    (url : String) : accepts url pattern = false := by
  rw [accepts, h]

theorem accepts_of_ok {pattern : String} {c : Compiled} (h : compile pattern = .ok c)
    (url : String) : accepts url pattern = (c.extract url.toList).isSome := by
  rw [accepts, h]
  dsimp only
  rw [c.isMatch_eq_isSome_captures, Compiled.captures, Option.isSome_map]

namespace Listing

/-- The position of the first pattern that does not compile, or the length. -/
def firstBroken (l : Listing α) : Nat :=
  l.findIdx fun e => !compiles e.1

/-- The position of the first pattern that compiles and matches a url, or the length. -/
def firstMatch (url : String) (l : Listing α) : Nat :=
  l.findIdx fun e => accepts url e.1

section Cons

variable {e : String × α} {l : Listing α} {c : Compiled} {error : CompileError}

theorem firstBroken_cons_of_error (h : compile e.1 = .error error) : firstBroken (e :: l) = 0 := by
  simp [firstBroken, List.findIdx_cons, compiles_of_error h]

theorem firstBroken_cons_of_ok (h : compile e.1 = .ok c) :
    firstBroken (e :: l) = firstBroken l + 1 := by
  simp [firstBroken, List.findIdx_cons, compiles_of_ok h]

theorem firstMatch_cons_of_error (h : compile e.1 = .error error) (url : String) :
    firstMatch url (e :: l) = firstMatch url l + 1 := by
  simp [firstMatch, List.findIdx_cons, accepts_of_error h]

theorem firstMatch_cons_of_ok (h : compile e.1 = .ok c) (url : String) :
    firstMatch url (e :: l) =
      if (c.extract url.toList).isSome then 0 else firstMatch url l + 1 := by
  rw [firstMatch, List.findIdx_cons, accepts_of_ok h]
  cases (c.extract url.toList).isSome <;> rfl

end Cons

/-- The answer of a lookup by the two positions. -/
theorem find_cases (url : String) : ∀ l : Listing α,
    (firstMatch url l < firstBroken l → ∃ e c found, l[firstMatch url l]? = some e ∧
      compile e.1 = .ok c ∧ c.extract url.toList = some found ∧
      find url l = .ok (some ⟨e.2, url, e.1, found.1, found.2⟩)) ∧
    (firstBroken l < firstMatch url l → ∃ e error, l[firstBroken l]? = some e ∧
      compile e.1 = .error error ∧ find url l = .error error) ∧
    (firstMatch url l = firstBroken l → firstBroken l = l.length ∧ find url l = .ok none)
  | [] => by simp [firstMatch, firstBroken, find, scan]
  | e :: l => by
    have ih := find_cases url l
    rcases hc : compile e.1 with error | c
    · have hf : find url (e :: l) = .error error := find_cons_of_error hc l
      rw [firstBroken_cons_of_error hc, firstMatch_cons_of_error hc]
      exact ⟨fun h => by omega, fun _ => ⟨e, error, rfl, hc, hf⟩, fun h => by omega⟩
    · rw [firstBroken_cons_of_ok hc, firstMatch_cons_of_ok hc]
      rcases hx : c.extract url.toList with _ | found
      · rw [find_cons_of_none hc hx]
        simpa using ih
      · have hf := find_cons_of_some hc hx l
        rw [Option.isSome_some, if_pos rfl]
        exact ⟨fun _ => ⟨e, c, found, rfl, hc, hx, hf⟩, fun h => by omega, fun h => by omega⟩

theorem compileAll_cases : ∀ l : Listing α,
    (firstBroken l < l.length → ∃ e error, l[firstBroken l]? = some e ∧
      compile e.1 = .error error ∧ compileAll l = .error error) ∧
    (firstBroken l = l.length → compileAll l = .ok ())
  | [] => by simp [firstBroken, compileAll]
  | e :: l => by
    have ih := compileAll_cases l
    rcases hc : compile e.1 with error | c
    · have ha : compileAll (e :: l) = .error error := by simp only [compileAll, hc]
      rw [firstBroken_cons_of_error hc]
      exact ⟨fun _ => ⟨e, error, rfl, hc, ha⟩, fun h => by simp at h⟩
    · have ha : compileAll (e :: l) = compileAll l := by simp only [compileAll, hc]
      rw [firstBroken_cons_of_ok hc, ha]
      simpa using ih

/-- A lookup fails as compiling all patterns does. -/
theorem compileAll_of_find {l : Listing α} {url : String} {error : CompileError}
    (h : find url l = .error error) : compileAll l = .error error := by
  obtain ⟨hm, hb, hn⟩ := find_cases url l
  rcases Nat.lt_trichotomy (firstMatch url l) (firstBroken l) with hlt | heq | hlt
  · obtain ⟨e, c, found, -, -, -, hf⟩ := hm hlt
    rw [hf] at h
    cases h
  · rw [(hn heq).2] at h
    cases h
  · obtain ⟨e, error', he, hc, hf⟩ := hb hlt
    have hlen : firstBroken l < l.length := (List.getElem?_eq_some_iff.1 he).1
    obtain ⟨e', error'', he', hc', ha⟩ := (compileAll_cases l).1 hlen
    rw [he, Option.some.injEq] at he'
    subst he'
    rw [hc, Except.error.injEq] at hc'
    rw [hf, Except.error.injEq] at h
    rw [ha, ← hc', h]

theorem compileAll_of_dispatch {call : α → γ → Params → β} {l : Listing α} {url : String}
    {context : γ} {error : CompileError} (h : dispatch call url context l = .error error) :
    compileAll l = .error error := by
  rw [dispatch] at h
  cases hf : find url l with
  | error e =>
    rw [hf] at h
    cases h
    exact compileAll_of_find hf
  | ok found =>
    rw [hf] at h
    cases h

/-- Whether all patterns compile. -/
def Compiles (l : Listing α) : Prop :=
  ∀ p ∈ l.map Prod.fst, compiles p = true

theorem compileAll_eq_ok_iff : ∀ {l : Listing α}, compileAll l = .ok () ↔ Compiles l
  | [] => by simp [compileAll, Compiles]
  | e :: l => by
    rw [Compiles, List.map_cons, List.forall_mem_cons, compileAll]
    rcases hc : compile e.1 with error | c
    · simp [compiles_of_error hc]
    · simp only [compiles_of_ok hc, true_and]
      exact compileAll_eq_ok_iff

theorem Compiles.insert {pattern : String} (hp : compiles pattern = true) (value : α) :
    ∀ {l : Listing α}, Compiles l → Compiles (insert pattern value l)
  | [], _ => by simpa [Compiles, Listing.insert] using hp
  | e :: l, h => by
    obtain ⟨he, hl⟩ := List.forall_mem_cons.1 h
    rw [Listing.insert]
    split
    · exact List.forall_mem_cons.2 ⟨hp, hl⟩
    · exact List.forall_mem_cons.2 ⟨he, Compiles.insert hp value hl⟩

theorem Compiles.extend : ∀ (routes : List (String × α)) {l : Listing α},
    Compiles routes → Compiles l → Compiles (extend routes l)
  | [], _, _, h => h
  | r :: routes, _, hr, h => by
    obtain ⟨hp, hr⟩ := List.forall_mem_cons.1 hr
    exact Compiles.extend routes hr (Compiles.insert hp r.2 h)

end Listing

namespace Table

/-- The position of the first pattern that does not compile, or the size. -/
def firstBroken (t : Table α) : Nat :=
  t.patterns.findIdx fun p => !compiles p

/-- The position of the first pattern that compiles and matches a url, or the size. -/
def firstMatch (t : Table α) (url : String) : Nat :=
  t.patterns.findIdx (accepts url)

theorem firstBroken_listing (t : Table α) : t.listing.firstBroken = t.firstBroken := by
  rw [firstBroken, ← map_fst_listing, List.findIdx_map]
  rfl

theorem firstMatch_listing (t : Table α) (url : String) :
    Listing.firstMatch url t.listing = t.firstMatch url := by
  rw [firstMatch, ← map_fst_listing, List.findIdx_map]
  rfl

theorem length_listing (t : Table α) : t.listing.length = t.size := by
  simp [listing, size]

theorem exists_route_of_listing {t : Table α} {i : Nat} {e : String × α}
    (h : t.listing[i]? = some e) : ∃ r, t.routes[i]? = some r ∧ r.entry = e := by
  rw [listing, List.getElem?_map, Array.getElem?_toList] at h
  exact Option.map_eq_some_iff.1 h

/-- The patterns that a step puts into a table. -/
def Step.puts : Step α γ → List String
  | .insert pattern _ => [pattern]
  | .tryInsert pattern _ => [pattern]
  | .extend routes => routes.map Prod.fst
  | _ => []

/-- The error that a reply reports. -/
def Reply.error? : Reply α β → Option CompileError
  | .inserted (.error e) _ => some e
  | .compiled (.error e) => some e
  | .found (.error e) => some e
  | .dispatched (.error e) => some e
  | _ => none

end Table

namespace Listing

/-- A step on patterns that compile reports no error, and leaves patterns that compile. Only an
exchange looks at the saved copy. -/
theorem error?_step (call : α → γ → Params → β) {s : Session (Listing α)} {st : Table.Step α γ}
    (hs : Compiles s.current) (hp : ∀ p ∈ st.puts, compiles p = true)
    (hw : st = .swap → Compiles s.saved) :
    (step call s st).1.error? = none ∧ Compiles (step call s st).2.current ∧
      (Compiles s.saved → Compiles (step call s st).2.saved) := by
  have ha : compileAll s.current = .ok () := compileAll_eq_ok_iff.2 hs
  cases st with
  | insert pattern value =>
    exact ⟨rfl, Compiles.insert (hp _ (by simp [Table.Step.puts])) value hs, id⟩
  | tryInsert pattern value =>
    have hc : compiles pattern = true := hp _ (by simp [Table.Step.puts])
    simp only [step, tryInsert]
    rcases he : compile pattern with e | c
    · rw [compiles_of_error he] at hc
      cases hc
    · exact ⟨rfl, Compiles.insert hc value hs, id⟩
  | extend routes => exact ⟨rfl, Compiles.extend routes hp hs, id⟩
  | clear => exact ⟨rfl, by simp [step, Session.set, Compiles], id⟩
  | save => exact ⟨rfl, hs, fun _ => hs⟩
  | swap => exact ⟨rfl, hw rfl, fun _ => hs⟩
  | compileAll =>
    refine ⟨?_, hs, id⟩
    simp only [step, ha, Table.Reply.error?]
  | find url =>
    refine ⟨?_, hs, id⟩
    rcases hf : find url s.current with e | found
    · rw [compileAll_of_find hf] at ha
      cases ha
    · simp only [step, hf, Table.Reply.error?]
  | dispatch url context =>
    refine ⟨?_, hs, id⟩
    rcases hf : dispatch call url context s.current with e | found
    · rw [compileAll_of_dispatch hf] at ha
      cases ha
    · simp only [step, hf, Table.Reply.error?]

theorem error?_run (call : α → γ → Params → β) : ∀ (steps : List (Table.Step α γ))
    {s : Session (Listing α)}, Compiles s.current →
      (∀ st ∈ steps, ∀ p ∈ st.puts, compiles p = true) → (.swap ∈ steps → Compiles s.saved) →
        ∀ reply ∈ (run call s steps).1, reply.error? = none
  | [], _, _, _, _ => by simp [run]
  | first :: steps, s, hs, hp, hw => by
    obtain ⟨hf, hp⟩ := List.forall_mem_cons.1 hp
    -- The saved copy need not compile before an exchange; a step that saves makes it compile.
    obtain ⟨hr, hc, hv⟩ := error?_step call hs hf fun h => hw (h ▸ List.mem_cons_self)
    simp only [run, List.forall_mem_cons]
    exact ⟨hr, error?_run call steps hc hp fun h => hv (hw (List.mem_cons_of_mem first h))⟩

end Listing

namespace Table

theorem answer_dispatch (call : α → γ → Params → β) (t : Table α) (url : String) (context : γ) :
    (t.dispatch call url context).answer =
      (t.find url).answer.map fun found => found.map fun m => call m.value context m.params :=
  rfl

namespace Valid

variable {t u : Table α}

theorem find_cases (h : t.Valid) (url : String) :
    (t.firstMatch url < t.firstBroken → ∃ r c params query,
      t.routes[t.firstMatch url]? = some r ∧ compile r.pattern = .ok c ∧
      c.extract url.toList = some (params, query) ∧
      (t.find url).answer = .ok (some ⟨r.value, url, r.pattern, params, query⟩)) ∧
    (t.firstBroken < t.firstMatch url → ∃ r e, t.routes[t.firstBroken]? = some r ∧
      compile r.pattern = .error e ∧ (t.find url).answer = .error e) ∧
    (t.firstMatch url = t.firstBroken →
      t.firstBroken = t.size ∧ (t.find url).answer = .ok none) := by
  have hc := Listing.find_cases url t.listing
  rw [firstBroken_listing, firstMatch_listing, length_listing, ← (refines_find h url).answer_eq] at hc
  obtain ⟨hm, hb, hn⟩ := hc
  refine ⟨fun hlt => ?_, fun hlt => ?_, hn⟩
  · obtain ⟨e, c, found, he, hc, hx, hl⟩ := hm hlt
    obtain ⟨r, hr, rfl⟩ := exists_route_of_listing he
    exact ⟨r, c, found.1, found.2, hr, hc, hx, hl⟩
  · obtain ⟨e, error, he, hc, hl⟩ := hb hlt
    obtain ⟨r, hr, rfl⟩ := exists_route_of_listing he
    exact ⟨r, error, hr, hc, hl⟩

theorem compileAll_cases (h : t.Valid) :
    (t.firstBroken < t.size → ∃ r e, t.routes[t.firstBroken]? = some r ∧
      compile r.pattern = .error e ∧ t.compileAll.answer = .error e) ∧
    (t.firstBroken = t.size → t.compileAll.answer = .ok ()) := by
  have hc := Listing.compileAll_cases t.listing
  rw [firstBroken_listing, length_listing, ← (refines_compileAll h).answer_eq] at hc
  refine ⟨fun hlt => ?_, hc.2⟩
  obtain ⟨e, error, he, hc, hl⟩ := hc.1 hlt
  obtain ⟨r, hr, rfl⟩ := exists_route_of_listing he
  exact ⟨r, error, hr, hc, hl⟩

theorem compiles_patterns (h : t.Valid) (hok : t.compileAll.answer = .ok ()) :
    ∀ p ∈ t.patterns, compiles p = true := by
  rw [(refines_compileAll h).answer_eq, Listing.compileAll_eq_ok_iff] at hok
  rwa [← map_fst_listing]

/-- What compiles keeps compiling, so a run that adds nothing else reports no error. -/
theorem error?_run (h : t.Valid) (hok : t.compileAll.answer = .ok ()) (hu : u.Valid)
    (call : α → γ → Params → β) {steps : List (Step α γ)}
    (hp : ∀ st ∈ steps, ∀ p ∈ st.puts, p ∈ t.patterns)
    (hw : .swap ∈ steps → ∀ p ∈ u.patterns, p ∈ t.patterns) :
    ∀ reply ∈ (run call ⟨t.compileAll.state, u⟩ steps).1.map Prod.fst, reply.error? = none := by
  have ha := refines_compileAll h
  have hc := h.compiles_patterns hok
  have hs : BothValid ⟨t.compileAll.state, u⟩ := ⟨ha.valid, hu⟩
  rw [(run_eq call steps hs).1]
  refine Listing.error?_run call steps ?_ (fun st hst p hm => hc p (hp st hst p hm)) fun hm => ?_
  · rw [listings, ha.listing_eq, Listing.Compiles, map_fst_listing]
    exact hc
  · rw [listings, Listing.Compiles, map_fst_listing]
    exact fun p hpu => hc p (hw hm p hpu)

end Valid

/-- The smaller of the two positions gives the answer of a lookup, and the first pattern that does
not compile gives that of compiling all patterns. So lookups fail as compiling all patterns does,
and once that succeeds nothing fails until another pattern is put into the table. -/
theorem first_match_wins (call : α → γ → Params → β) {t : Table α} (h : t.Reachable call) :
    (∀ url,
      (t.firstMatch url < t.firstBroken → ∃ r c params query,
        t.routes[t.firstMatch url]? = some r ∧ compile r.pattern = .ok c ∧
        c.extract url.toList = some (params, query) ∧
        (t.find url).answer = .ok (some ⟨r.value, url, r.pattern, params, query⟩) ∧
        ∀ context, (t.dispatch call url context).answer =
          .ok (some (call r.value context params))) ∧
      (t.firstBroken < t.firstMatch url → ∃ r e,
        t.routes[t.firstBroken]? = some r ∧ compile r.pattern = .error e ∧
        (t.find url).answer = .error e ∧
        ∀ context, (t.dispatch call url context).answer = .error e) ∧
      (t.firstMatch url = t.firstBroken →
        t.firstBroken = t.size ∧ (t.find url).answer = .ok none ∧
        ∀ context, (t.dispatch call url context).answer = .ok none)) ∧
    (t.firstBroken < t.size → ∃ r e, t.routes[t.firstBroken]? = some r ∧
      compile r.pattern = .error e ∧ t.compileAll.answer = .error e) ∧
    (t.firstBroken = t.size → t.compileAll.answer = .ok ()) ∧
    (∀ url e, (t.find url).answer = .error e ∨
      (∃ context, (t.dispatch call url context).answer = .error e) →
        t.compileAll.answer = .error e) ∧
    (t.compileAll.answer = .ok () → ∀ (u : Table α) (steps : List (Step α γ)), u.Reachable call →
      (∀ st ∈ steps, ∀ p ∈ st.puts, p ∈ t.patterns) →
      (.swap ∈ steps → ∀ p ∈ u.patterns, p ∈ t.patterns) →
        ∀ reply ∈ (run call ⟨t.compileAll.state, u⟩ steps).1.map Prod.fst,
          reply.error? = none) := by
  have hv := h.valid
  have ha := (refines_compileAll hv).answer_eq
  refine ⟨fun url => ?_, hv.compileAll_cases.1, hv.compileAll_cases.2, ?_,
    fun hok u steps hu hp hw => hv.error?_run hok hu.valid call hp hw⟩
  · obtain ⟨hm, hb, hn⟩ := hv.find_cases url
    refine ⟨fun hlt => ?_, fun hlt => ?_, fun heq => ?_⟩
    · obtain ⟨r, c, params, query, hr, hc, hx, hf⟩ := hm hlt
      exact ⟨r, c, params, query, hr, hc, hx, hf, fun context => by rw [answer_dispatch, hf]; rfl⟩
    · obtain ⟨r, e, hr, hc, hf⟩ := hb hlt
      exact ⟨r, e, hr, hc, hf, fun context => by rw [answer_dispatch, hf]; rfl⟩
    · obtain ⟨hs, hf⟩ := hn heq
      exact ⟨hs, hf, fun context => by rw [answer_dispatch, hf]; rfl⟩
  · rintro url e (he | ⟨context, he⟩)
    · rw [(refines_find hv url).answer_eq] at he
      exact ha.trans (Listing.compileAll_of_find he)
    · rw [(refines_dispatch call hv url context).answer_eq] at he
      exact ha.trans (Listing.compileAll_of_dispatch he)

theorem first_match_wins_broken :
    ∃ t t' : Table Nat, t.patterns = ["/:x", "/b("] ∧ t'.patterns = ["/:x"] ∧
      (∃ m, (t.find "/a").answer = .ok (some m) ∧ m.value = 1) ∧
      (∃ e, (t.find "/b/").answer = .error e ∧ t.compileAll.answer = .error e) ∧
      t'.compileAll.answer = .ok () ∧
      ∀ reply ∈ (run (fun value (_ : Unit) _ => value) ⟨t'.compileAll.state, t'⟩
        [.find "/b/", .insert "/:x" 2, .swap, .find "/b/"]).1.map Prod.fst, reply.error? = none := by
  have h : (ofList [("/:x", 1), ("/b(", 2)]).Reachable fun value (_ : Unit) _ => value :=
    ⟨[("/:x", 1), ("/b(", 2)], [], rfl⟩
  have h' : (ofList [("/:x", 1)]).Reachable fun value (_ : Unit) _ => value :=
    ⟨[("/:x", 1)], [], rfl⟩
  obtain ⟨hf, -, -, he, -⟩ := first_match_wins _ h
  obtain ⟨-, -, hok, -, hs⟩ := first_match_wins _ h'
  refine ⟨ofList [("/:x", 1), ("/b(", 2)], ofList [("/:x", 1)], rfl, rfl, ?_, ?_, ?_, ?_⟩
  · obtain ⟨r, c, params, query, hr, -, -, hm, -⟩ := (hf "/a").1 (by decide +kernel)
    have hj : (ofList [("/:x", 1), ("/b(", 2)]).firstMatch "/a" = 0 := by decide +kernel
    rw [hj] at hr
    cases hr
    exact ⟨_, hm, rfl⟩
  · obtain ⟨r, e, -, -, hm, -⟩ := (hf "/b/").2.1 (by decide +kernel)
    exact ⟨e, hm, he _ _ (.inl hm)⟩
  · exact hok (by decide +kernel)
  · exact hs (hok (by decide +kernel)) _ _ h' (by decide) (fun _ p hp => hp)

end Table

end PathRouting
