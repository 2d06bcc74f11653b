import PathRouting.Proofs.Table.Events

/-!
# The log of a step

A scan reports the routes that it comes to in their order: each one that is compiled now for the
first time, and the failure that ends it, if one does (`Route.exists_events_scan`). What it leaves
is the table with these routes filled (`Valid.state_scan`). A lookup comes as far as the first
pattern that matches or does not compile, and closes with one event unless it fails (`Closes`);
compiling all patterns stops at failures only, and closes with none.
-/

namespace PathRouting

variable {α β γ : Type}

/-- The event that reports an error: a fault with the error, a refusal with the rule that is
refused. -/
inductive CompileError.Reported : CompileError → Event → Prop
  | fault (pattern : String) (fault : Fault) :
    Reported ⟨pattern, .fault fault⟩ (.malformed ⟨pattern, .fault fault⟩)
  | refusal {pattern : String} {p : Pattern} (h : Pattern.ofText pattern.toList = .ok p)
    (refusal : Refusal) :
    Reported ⟨pattern, .refusal refusal⟩ (.refused pattern (String.ofList p.rule))

/-- What an event says besides its message, by key. -/
def Event.fields : Event → List (String × String)
  | compiled pattern rule params => [("pattern", pattern), ("rule", rule), ("params", params.repr)]
  | malformed error => [("pattern", error.pattern), ("error", error.message)]
  | refused pattern rule => [("pattern", pattern), ("rule", rule)]
  | matched url pattern => [("url", url), ("pattern", pattern)]
  | unmatched url => [("url", url)]

theorem attempt_of_ok {source : String} {c : Compiled} (h : compile source = .ok c) :
    (attempt source).2 = .compiled source c.rule c.names.length := by
  rw [compile] at h
  rw [attempt] at h ⊢
  split at h
  · cases h
  · dsimp only at h ⊢
    split at h
    · cases h
    · cases h
      simp [Compiled.rule, Compiled.names, Compiled.ofPattern]

theorem attempt_of_error {source : String} {e : CompileError} (h : compile source = .error e) :
    e.pattern = source ∧ e.Reported (attempt source).2 := by
  rw [compile] at h
  rw [attempt] at h ⊢
  split at h
  · next fault hf =>
    cases h
    exact ⟨rfl, .fault source fault⟩
  · next p hp =>
    dsimp only at h ⊢
    split at h
    · next refusal hr =>
      cases h
      exact ⟨rfl, .refusal hp refusal⟩
    · cases h

namespace Route

/-- The event of a route that is compiled now for the first time. -/
def fresh? (r : Route α) : Option Event :=
  match r.compiled, compile r.pattern with
  | none, .ok c => some (.compiled r.pattern c.rule c.names.length)
  | _, _ => none

/-- The route with what its pattern compiles to, if it does. -/
def filled (r : Route α) : Route α :=
  { r with compiled := r.compiled.or (compile r.pattern).toOption }

theorem state_force (r : Route α) : r.force.state = r.filled := by
  rw [force, filled]
  split
  · next c hc =>
    rw [hc]
    cases r
    cases hc
    rfl
  · next hc =>
    rw [hc]
    split <;> next ha =>
      rw [← attempt_fst, ha]
      cases r
      cases hc
      rfl

theorem events_force_of_ok {r : Route α} {c : Compiled} (h : compile r.pattern = .ok c) :
    r.force.events = r.fresh?.toList := by
  rw [events_force, fresh?, h, attempt_of_ok h]
  cases r.compiled <;> rfl

theorem fresh?_of_error {r : Route α} {e : CompileError} (h : compile r.pattern = .error e) :
    r.fresh? = none := by
  rw [fresh?, h]
  cases r.compiled <;> rfl

/-- A pattern that does not compile is never kept, so its failure is reported. -/
theorem events_force_of_error {r : Route α} (hr : r.Sound) {e : CompileError}
    (h : compile r.pattern = .error e) : r.force.events = [(attempt r.pattern).2] := by
  rw [events_force]
  rcases hc : r.compiled with _ | c
  · rfl
  · rw [hr c hc] at h
    cases h

/-- What a scan reports: the routes that are compiled now for the first time, and the failure. -/
theorem exists_events_scan {probe : String → α → Compiled → Option β} {found : String → Bool}
    (hf : ∀ pattern value c, compile pattern = .ok c →
      (probe pattern value c).isSome = found pattern) :
    ∀ {routes : List (Route α)}, (∀ r ∈ routes, r.Sound) →
      let n := (routes.map pattern).findIdx (fun p => !compiles p || found p) + 1
      let o := scan (fun r c => probe r.pattern r.value c) routes
      ∃ tail, o.events = (routes.take n).filterMap fresh? ++ tail ∧
        (∀ b, o.answer = .ok b → tail = []) ∧
        ∀ e, o.answer = .error e → ∃ event, e.Reported event ∧ tail = [event]
  | [], _ => ⟨[], rfl, fun _ _ => rfl, nofun⟩
  | r :: routes, h => by
    obtain ⟨hr, ht⟩ := List.forall_mem_cons.1 h
    have ha := answer_force hr
    -- The cases of the scan: a failure ends it, or an answer does, or the rest is scanned.
    rcases hc : compile r.pattern with e | c
    · rw [hc] at ha
      refine ⟨[(attempt r.pattern).2], ?_, ?_, ?_⟩
      · simp [scan, ha, List.findIdx_cons, compiles_of_error hc, fresh?_of_error hc,
          events_force_of_error hr hc]
      · simp [scan, ha]
      · intro e' he'
        simp only [scan, ha, Except.error.injEq] at he'
        subst he'
        exact ⟨_, (attempt_of_error hc).2, rfl⟩
    · rw [hc] at ha
      have hp := hf r.pattern r.value c hc
      have he := events_force_of_ok hc
      rcases hb : probe r.pattern r.value c with _ | b
      · rw [hb] at hp
        obtain ⟨tail, ihe, ihok, iherr⟩ := exists_events_scan hf ht
        refine ⟨tail, ?_, ?_, ?_⟩
        · simp only [scan, ha, hb, ihe, he]
          cases hfr : r.fresh? <;> simp [List.findIdx_cons, compiles_of_ok hc, ← hp, hfr]
        · simpa only [scan, ha, hb] using ihok
        · simpa only [scan, ha, hb] using iherr
      · rw [hb] at hp
        refine ⟨[], ?_, ?_, ?_⟩
        · simp only [scan, ha, hb, he]
          cases hfr : r.fresh? <;> simp [List.findIdx_cons, compiles_of_ok hc, ← hp, hfr]
        · simp
        · simp [scan, ha, hb]

end Route

namespace Table

/-- The table with its first routes filled. -/
def filledTo (n : Nat) (t : Table α) : Table α :=
  let routes := t.routes.toList
  { t with routes := ((routes.take n).map Route.filled ++ routes.drop n).toArray }

/-- The events of the first routes that are compiled now for the first time. -/
def freshTo (n : Nat) (t : Table α) : List Event :=
  (t.routes.toList.take n).filterMap Route.fresh?

/-- How a lookup closes: with the url and the pattern that wins, with the url alone if no pattern
matches, or with the failure of the first pattern that does not compile. -/
inductive Closes (t : Table α) (url : String) :
    Except CompileError (Option (Match α)) → List Event → Prop
  | matched {m : Match α} (hlt : t.firstMatch url < t.firstBroken)
    (hp : t.patterns[t.firstMatch url]? = some m.pattern) :
    Closes t url (.ok (some m)) [.matched url m.pattern]
  | unmatched (hm : t.firstMatch url = t.size) (hb : t.firstBroken = t.size) :
    Closes t url (.ok none) [.unmatched url]
  | failed {e : CompileError} {event : Event} (hlt : t.firstBroken < t.firstMatch url)
    (hp : t.patterns[t.firstBroken]? = some e.pattern) (hc : compile e.pattern = .error e)
    (he : e.Reported event) : Closes t url (.error e) [event]

theorem findIdx_or_eq_min {δ : Type} (p q : δ → Bool) : ∀ l : List δ,
    l.findIdx (fun a => p a || q a) = min (l.findIdx p) (l.findIdx q)
  | [] => rfl
  | a :: l => by
    simp only [List.findIdx_cons, findIdx_or_eq_min p q l]
    cases p a <;> cases q a <;> simp

theorem getElem?_patterns {t : Table α} {i : Nat} {r : Route α} (h : t.routes[i]? = some r) :
    t.patterns[i]? = some r.pattern := by
  rw [patterns, List.getElem?_map, Array.getElem?_toList, h]
  rfl

/-- The match of a pattern, if it is one. -/
def probe (url pattern : String) (value : α) (c : Compiled) : Option (Match α) :=
  (c.extract url.toList).map fun found =>
    { value, url, pattern, params := found.1, query := found.2 }

theorem isSome_probe (url pattern : String) (value : α) (c : Compiled)
    (h : compile pattern = .ok c) : (probe url pattern value c).isSome = accepts url pattern := by
  rw [probe, Option.isSome_map, accepts_of_ok h]

/-- Compiling all patterns asks nothing of them, so it stops at failures only. -/
theorem isSome_unasked (pattern : String) (_ : α) (c : Compiled) (_ : compile pattern = .ok c) :
    (none : Option Unit).isSome = false :=
  rfl

namespace Valid

variable {t : Table α}

theorem state_scan (h : t.Valid) {probe : String → α → Compiled → Option β}
    {found : String → Bool} (hf : ∀ pattern value c, compile pattern = .ok c →
      (probe pattern value c).isSome = found pattern) :
    (t.scan fun r c => probe r.pattern r.value c).state =
      t.filledTo (t.patterns.findIdx (fun p => !compiles p || found p) + 1) := by
  have hs := (Route.scan_eq hf h.sound).1
  simp only [Route.state_force] at hs
  simp only [scan, Outcome.mapState, filledTo, patterns]
  rw [hs]

theorem firstMatch_or_firstBroken (t : Table α) (url : String) :
    t.patterns.findIdx (fun p => !compiles p || accepts url p) =
      min (t.firstMatch url) t.firstBroken := by
  rw [findIdx_or_eq_min, Nat.min_comm]
  rfl

/-- A lookup reports the routes up to the one that ends it, and closes. -/
theorem events_find (h : t.Valid) (url : String) :
    ∃ closing, t.Closes url (t.find url).answer closing ∧
      (t.find url).events =
        t.freshTo (min (t.firstMatch url) t.firstBroken + 1) ++ closing := by
  obtain ⟨tail, hev, hok, herr⟩ := Route.exists_events_scan (isSome_probe url) h.sound
  have hev' : (t.find url).events =
      t.freshTo (min (t.firstMatch url) t.firstBroken + 1) ++
        (tail ++ closing url (t.find url).answer) := by
    rw [← firstMatch_or_firstBroken, ← List.append_assoc]
    exact congrArg (· ++ closing url (t.find url).answer) hev
  refine ⟨_, ?_, hev'⟩
  obtain ⟨hm, hb, hn⟩ := h.find_cases url
  rcases Nat.lt_trichotomy (t.firstMatch url) t.firstBroken with hlt | heq | hlt
  · obtain ⟨r, c, params, query, hr, -, -, ha⟩ := hm hlt
    rw [hok _ ha, ha]
    exact .matched hlt (getElem?_patterns hr)
  · obtain ⟨hs, ha⟩ := hn heq
    rw [hok _ ha, ha]
    exact .unmatched (heq.trans hs) hs
  · obtain ⟨r, e, hr, hc, ha⟩ := hb hlt
    obtain ⟨event, he, ht⟩ := herr e ha
    have hp := (attempt_of_error hc).1
    rw [ht, ha]
    exact .failed hlt (hp ▸ getElem?_patterns hr) (hp.symm ▸ hc) he

theorem state_find (h : t.Valid) (url : String) :
    (t.find url).state = t.filledTo (min (t.firstMatch url) t.firstBroken + 1) := by
  rw [← firstMatch_or_firstBroken]
  exact h.state_scan (isSome_probe url)

/-- Compiling all patterns reports the routes up to the first failure, which it closes with. -/
theorem events_compileAll (h : t.Valid) :
    ∃ closing, t.compileAll.events = t.freshTo (t.firstBroken + 1) ++ closing ∧
      (t.compileAll.answer = .ok () → t.firstBroken = t.size ∧ closing = []) ∧
      ∀ e, t.compileAll.answer = .error e → t.patterns[t.firstBroken]? = some e.pattern ∧
        compile e.pattern = .error e ∧ ∃ event, e.Reported event ∧ closing = [event] := by
  obtain ⟨tail, hev, hok, herr⟩ := Route.exists_events_scan isSome_unasked h.sound
  simp only [Bool.or_false] at hev
  have hans : t.compileAll.answer =
      (t.scan fun _ _ => (none : Option Unit)).answer.map fun _ => () := rfl
  obtain ⟨hb, hn⟩ := h.compileAll_cases
  have hle : t.firstBroken ≤ t.size := by
    rw [← firstBroken_listing, ← length_listing]
    exact List.findIdx_le_length
  rcases Nat.lt_or_eq_of_le hle with hlt | heq
  · obtain ⟨r, e, hr, hc, ha⟩ := hb hlt
    rw [ha] at hans ⊢
    refine ⟨tail, hev, nofun, fun e' he' => ?_⟩
    cases he'
    have hp := (attempt_of_error hc).1
    refine ⟨hp ▸ getElem?_patterns hr, hp.symm ▸ hc, herr e ?_⟩
    cases hs : (t.scan fun _ _ => (none : Option Unit)).answer with
    | ok b => rw [hs] at hans; cases hans
    | error e => rw [hs] at hans; cases hans; exact hs
  · rw [hn heq] at hans ⊢
    refine ⟨tail, hev, fun _ => ⟨heq, ?_⟩, nofun⟩
    cases hs : (t.scan fun _ _ => (none : Option Unit)).answer with
    | ok b => exact hok b hs
    | error e => rw [hs] at hans; cases hans

theorem state_compileAll (h : t.Valid) : t.compileAll.state = t.filledTo (t.firstBroken + 1) := by
  have hs := h.state_scan isSome_unasked
  simp only [Bool.or_false] at hs
  exact hs

end Valid

theorem events_tryInsert (t : Table α) (pattern : String) (value : α) :
    (t.tryInsert pattern value).events = [(attempt pattern).2] := by
  rw [tryInsert]
  split <;> next ha => rw [ha]

/-- A lookup reports, in order, each route up to the one that ends it that is compiled for the first
time, and closes with the match, with nothing matched, or with the failure that ends it; compiling
all patterns does so up to the first failure. The routes that were come to are left filled. An
insertion that compiles reports its pattern and nothing else. -/
theorem log_of_step (call : α → γ → Params → β) {t : Table α} (h : t.Reachable call) :
    (∀ url,
      let reached := min (t.firstMatch url) t.firstBroken + 1
      (∃ closing, t.Closes url (t.find url).answer closing ∧
        (t.find url).events = t.freshTo reached ++ closing) ∧
      (t.find url).state = t.filledTo reached ∧
      ∀ context, (t.dispatch call url context).events = (t.find url).events ∧
        (t.dispatch call url context).state = (t.find url).state) ∧
    (∃ closing, t.compileAll.events = t.freshTo (t.firstBroken + 1) ++ closing ∧
      (t.compileAll.answer = .ok () → t.firstBroken = t.size ∧ closing = []) ∧
      ∀ e, t.compileAll.answer = .error e → t.patterns[t.firstBroken]? = some e.pattern ∧
        compile e.pattern = .error e ∧ ∃ event, e.Reported event ∧ closing = [event]) ∧
    t.compileAll.state = t.filledTo (t.firstBroken + 1) ∧
    (∀ pattern value,
      (∀ c, compile pattern = .ok c → (t.tryInsert pattern value).events =
        [.compiled pattern c.rule c.names.length]) ∧
      (∀ e, compile pattern = .error e → ∃ event, e.Reported event ∧
        (t.tryInsert pattern value).events = [event]) ∧
      ∀ p, p ∈ (t.tryInsert pattern value).state.kept ↔
        p ∈ t.kept ∨ p ∈ [pattern].filter compiles) ∧
    ∀ (e : CompileError) (event : Event), e.Reported event →
      (∀ fault, e.cause = .fault fault → event.message = "failed to compile pattern" ∧
        event.fields = [("pattern", e.pattern), ("error", e.message)]) ∧
      ∀ refusal, e.cause = .refusal refusal → event.message = "failed to build matching rule" ∧
        ∃ p, Pattern.ofText e.pattern.toList = .ok p ∧
          event.fields = [("pattern", e.pattern), ("rule", String.ofList p.rule)] := by
  have hv := h.valid
  refine ⟨fun url => ⟨hv.events_find url, hv.state_find url, fun context => ⟨rfl, rfl⟩⟩,
    hv.events_compileAll, hv.state_compileAll, fun pattern value => ⟨fun c hc => ?_, fun e he => ?_,
    fun p => hv.mem_kept_tryInsert pattern value⟩, fun e event he => ?_⟩
  · rw [events_tryInsert, attempt_of_ok hc]
  · exact ⟨_, (attempt_of_error he).2, events_tryInsert t pattern value⟩
  · cases he with
    | fault pattern fault => exact ⟨fun _ _ => ⟨rfl, rfl⟩, nofun⟩
    | refusal hp refusal => exact ⟨nofun, fun _ _ => ⟨rfl, _, hp, rfl⟩⟩

theorem log_of_step_cached :
    let t := ((ofList [("/a", 1), ("/:x", 2), ("/b(", 3)]).find "/a").state
    (t.find "/z").events =
        [.compiled "/:x" "^/([^/?]+)(?:\\?([\\s\\S]*))?$" 1, .matched "/z" "/:x"] ∧
      (t.find "/a/b").events =
        [.compiled "/:x" "^/([^/?]+)(?:\\?([\\s\\S]*))?$" 1,
          .malformed ⟨"/b(", .fault .unbalancedGroup⟩] ∧
      (t.find "/a/b").state.kept = ["/a", "/:x"] := by
  intro t
  have h : t.Reachable fun value (_ : Unit) _ => value :=
    ⟨[("/a", 1), ("/:x", 2), ("/b(", 3)], [.find "/a"], rfl⟩
  obtain ⟨hf, -⟩ := log_of_step _ h
  obtain ⟨⟨closing, hc, he⟩, -⟩ := hf "/z"
  obtain ⟨⟨closing', hc', he'⟩, hs', -⟩ := hf "/a/b"
  generalize (t.find "/z").answer = answer at hc
  generalize (t.find "/a/b").answer = answer' at hc'
  have hm : t.firstMatch "/z" = 1 ∧ t.firstBroken = 2 := by decide +kernel
  have hm' : t.firstMatch "/a/b" = 3 := by decide +kernel
  have hx : t.freshTo 2 = [.compiled "/:x" "^/([^/?]+)(?:\\?([\\s\\S]*))?$" 1] := by decide +kernel
  have hx' : t.freshTo 3 = t.freshTo 2 := by decide +kernel
  refine ⟨?_, ?_, ?_⟩
  · rw [he, hm.1, hm.2, show min 1 2 + 1 = 2 from rfl, hx]
    cases hc with
    | matched hlt hp =>
      rw [hm.1, show t.patterns[1]? = some "/:x" by decide +kernel, Option.some.injEq] at hp
      rw [← hp]
      rfl
    | unmatched hu hb => omega
    | failed hlt => omega
  · rw [he', hm', hm.2, show min 3 2 + 1 = 3 from rfl, hx', hx]
    cases hc' with
    | matched hlt => omega
    | unmatched hu hb => omega
    | failed hlt hp hb hr =>
      rw [hm.2, show t.patterns[2]? = some "/b(" by decide +kernel, Option.some.injEq] at hp
      rw [← hp] at hb
      cases hb
      cases hr
      rfl
  · rw [hs']
    decide +kernel

end Table

end PathRouting
