import PathRouting.Table.Step

/-!
# Listings

A listing is a route table without an index and without anything compiled: patterns with their
values, in the order of priority. It compiles each pattern anew on every use, so all that it
answers depends on the patterns and values alone.
-/

namespace PathRouting

/-- Patterns with their values, in the order of priority. -/
abbrev Listing (α : Type) := List (String × α)

namespace Listing

variable {α β γ : Type}

/-- Replaces the value of a pattern, or adds the pattern at the end. -/
def insert (pattern : String) (value : α) : Listing α → Listing α
  | [] => [(pattern, value)]
  | e :: l => if e.1 = pattern then (pattern, value) :: l else e :: insert pattern value l

/-- Inserts nothing if the pattern does not compile. -/
def tryInsert (pattern : String) (value : α) (l : Listing α) :
    Except CompileError Unit × Listing α :=
  match compile pattern with
  | .ok _ => (.ok (), insert pattern value l)
  | .error e => (.error e, l)

def extend (routes : List (String × α)) (l : Listing α) : Listing α :=
  routes.foldl (fun l r => insert r.1 r.2 l) l

/-- Compiles the patterns, up to the first that fails. -/
def compileAll : Listing α → Except CompileError Unit
  | [] => .ok ()
  | e :: l =>
    match compile e.1 with
    | .ok _ => compileAll l
    | .error error => .error error

/-- The first answer of a probe of a pattern, its value and what the pattern compiles to. -/
def scan (probe : String → α → Compiled → Option β) :
    Listing α → Except CompileError (Option β)
  | [] => .ok none
  | e :: l =>
    match compile e.1 with
    | .error error => .error error
    | .ok c =>
      match probe e.1 e.2 c with
      | some b => .ok (some b)
      | none => scan probe l

/-- The first pattern that matches. -/
def find (url : String) : Listing α → Except CompileError (Option (Match α)) :=
  scan fun pattern value c =>
    (c.extract url.toList).map fun found =>
      { value, url, pattern, params := found.1, query := found.2 }

def dispatch (call : α → γ → Params → β) (url : String) (context : γ) (l : Listing α) :
    Except CompileError (Option β) :=
  (find url l).map fun found => found.map fun m => call m.value context m.params

def summary (l : Listing α) : Table.Summary :=
  ⟨l.length, l.isEmpty, l.map Prod.fst⟩

/-- A step on a listing and on the copy that is saved beside it. -/
def step (call : α → γ → Params → β) (s : Session (Listing α)) :
    Table.Step α γ → Table.Reply α β × Session (Listing α)
  | .insert pattern value =>
    let l := insert pattern value s.current
    (.summary (summary l), s.set l)
  | .tryInsert pattern value =>
    let o := tryInsert pattern value s.current
    (.inserted o.1 (summary o.2), s.set o.2)
  | .extend routes =>
    let l := extend routes s.current
    (.summary (summary l), s.set l)
  | .clear => (.summary (summary ([] : Listing α)), s.set [])
  | .save => (.summary (summary s.current), s.save)
  | .swap => (.summary (summary s.saved), s.swap)
  | .compileAll => (.compiled (compileAll s.current), s)
  | .find url => (.found (find url s.current), s)
  | .dispatch url context => (.dispatched (dispatch call url context s.current), s)

/-- The replies to steps, and the session after the last. -/
def run (call : α → γ → Params → β) (s : Session (Listing α)) :
    List (Table.Step α γ) → List (Table.Reply α β) × Session (Listing α)
  | [] => ([], s)
  | first :: steps =>
    let o := step call s first
    let others := run call o.2 steps
    (o.1 :: others.1, others.2)

theorem compileAll_eq_scan : ∀ l : Listing α,
    compileAll l = (scan (fun _ _ _ => (none : Option Unit)) l).map fun _ => ()
  | [] => rfl
  | e :: l => by
    rw [compileAll, scan, compileAll_eq_scan l]
    cases compile e.1 <;> rfl

section Find

variable {url : String} {e : String × α} {c : Compiled}

theorem find_cons_of_error {error : CompileError} (h : compile e.1 = .error error)
    (l : Listing α) : find url (e :: l) = .error error := by
  simp only [find, scan, h]

theorem find_cons_of_some {params : Params} {query : Option String} (h : compile e.1 = .ok c)
    (hx : c.extract url.toList = some (params, query)) (l : Listing α) :
    find url (e :: l) = .ok (some ⟨e.2, url, e.1, params, query⟩) := by
  simp only [find, scan, h, hx, Option.map_some]

theorem find_cons_of_none (h : compile e.1 = .ok c) (hx : c.extract url.toList = none)
    (l : Listing α) : find url (e :: l) = find url l := by
  simp only [find, scan, h, hx, Option.map_none]

end Find

/-- Where a pattern stands once, its value is replaced there. -/
theorem insert_eq_modify {pattern : String} (value : α) :
    ∀ {l : Listing α} {i : Nat}, (∀ j, (l.map Prod.fst)[j]? = some pattern ↔ i = j) →
      insert pattern value l = l.modify i fun e => (e.1, value)
  | [], i, h => by simpa using (h i).2 rfl
  | e :: l, 0, h => by
    have he : e.1 = pattern := by simpa using (h 0).2 rfl
    simp [insert, he]
  | e :: l, i + 1, h => by
    have he : e.1 ≠ pattern := fun he => by simpa [he] using h 0
    have hl : ∀ j, (l.map Prod.fst)[j]? = some pattern ↔ i = j := fun j => by
      simpa using h (j + 1)
    rw [insert, if_neg he, insert_eq_modify value hl, List.modify_succ_cons]

theorem insert_of_not_mem {pattern : String} (value : α) :
    ∀ {l : Listing α}, pattern ∉ l.map Prod.fst → insert pattern value l = l ++ [(pattern, value)]
  | [], _ => rfl
  | e :: l, h => by
    rw [List.map_cons, List.mem_cons, not_or] at h
    rw [insert, if_neg (Ne.symm h.1), insert_of_not_mem value h.2, List.cons_append]

end Listing

end PathRouting
