import Mathlib.Data.List.Forall2
import PathRouting.Proofs.Matching
import PathRouting.Proofs.Regex.Rule
import PathRouting.Proofs.Regex.Runs

/-!
# What the rule of a pattern captures

The runs of the expression of a pattern are the ways of the pattern, one by one (`same_runs`). So
what a compiled pattern reports is read off the groups of its rule by their numbers
(`extract_eq_captures?`): that of a name is one more than its place, and the query comes last.
-/

namespace PathRouting

/-- What a group binds a name to, if it took part and is not empty. -/
def bound? (name : List Char) : Option (List Char) → Option (String × String)
  | some value =>
    if value.isEmpty then none else some (String.ofList name, String.ofList value)
  | none => none

/-- What captures report. The name at a place takes the group with one number more, and the
query is the group behind those of the names. -/
def Found.ofCaptures (names : List (List Char)) (captures : List (Option (List Char))) : Found :=
  (⟨names.zipIdx.filterMap fun (name, i) => bound? name captures[i + 1]?.join⟩,
    captures[names.length + 1]?.join.map String.ofList)

section Same

variable {isSpace : Char → Bool}

theorem CharClass.admits_segment : CharClass.segment.admits isSpace = isSegmentChar := by
  funext c
  simp [admits, segment, ClassItem.admits, isSegmentChar]

theorem CharClass.admits_anything : CharClass.anything.admits isSpace = fun _ => true := by
  funext c
  simp [admits, anything, ClassItem.admits]

/-- What groups bind names to, each its own. -/
def boundBy (names : List (List Char)) (groups : List (Option (List Char))) :
    List (String × String) :=
  (names.zip groups).filterMap fun (name, group) => bound? name group

theorem boundBy_append {m n : List (List Char)} {g h : List (Option (List Char))}
    (hl : g.length = m.length) : boundBy (m ++ n) (g ++ h) = boundBy m g ++ boundBy n h := by
  rw [boundBy, List.zip_append hl.symm, List.filterMap_append]
  rfl

theorem boundBy_replicate_none (names : List (List Char)) (n : Nat) :
    boundBy names (List.replicate n none) = [] := by
  rw [boundBy, List.filterMap_eq_nil_iff]
  rintro ⟨name, group⟩ h
  rw [List.eq_of_mem_replicate (List.of_mem_zip h).2]
  rfl

/-- A run stands where a way does, and its groups bind the names to what the way binds. -/
structure Same (names : List (List Char)) (w : Way) (u : Run) : Prop where
  rest_eq : u.rest = w.rest
  length_eq : u.groups.length = names.length
  bound_eq : boundBy names u.groups = w.choices.filterMap Choice.pair?

theorem Same.append {m n : List (List Char)} {w v : Way} {u x : Run} (h : Same m w u)
    (h' : Same n v x) :
    Same (m ++ n) ⟨w.choices ++ v.choices, v.rest⟩ ⟨u.groups ++ x.groups, x.rest⟩ where
  rest_eq := h'.rest_eq
  length_eq := by simp [h.length_eq, h'.length_eq]
  bound_eq := by rw [boundBy_append h.length_eq, h.bound_eq, h'.bound_eq, List.filterMap_append]

theorem same_nil (text : List Char) : Same [] ⟨[], text⟩ ⟨[], text⟩ :=
  ⟨rfl, rfl, rfl⟩

/-- Ways and runs that are the same, one by one. -/
def AllSame (names : List (List Char)) : List Way → List Run → Prop :=
  List.Forall₂ (Same names)

theorem AllSame.andThen {m n : List (List Char)} {first second : Part} {text : List Char}
    {runs : List Run} {next : List Char → List Run} (h : AllSame m (first text) runs)
    (hn : ∀ rest, AllSame n (second rest) (next rest)) :
    AllSame (m ++ n) (first.andThen second text) (runs.flatMap fun u => u.andThen next) := by
  refine List.rel_flatMap h fun w u hs => ?_
  rw [Run.andThen, hs.rest_eq]
  refine List.forall₂_map_left_iff.2 (List.forall₂_map_right_iff.2 ?_)
  exact (hn w.rest).imp fun v x hvx => hs.append hvx

theorem allSame_literal (c : Char) (text : List Char) :
    AllSame [] (Part.literal c text) (Run.char c text) := by
  rcases text with _ | ⟨x, text⟩
  · exact .nil
  · by_cases h : x = c
    · simp only [Part.literal, Run.char, Run.stay, h, decide_true, if_true]
      exact .cons (same_nil text) .nil
    · simp only [Part.literal, Run.char, Run.stay, h, decide_false, if_false]
      exact .nil

/-- With no character as well, the splits of a part come with the empty one at last. -/
theorem Run.splits_eq (allowed : Char → Bool) :
    ∀ text, splits allowed text = Part.splits allowed text ++ [([], text)]
  | [] => rfl
  | c :: text => by
    rw [splits, Part.splits, splits_eq allowed text]
    split
    · rw [List.map_append, List.append_assoc, List.append_assoc]
      rfl
    · rfl

theorem Run.many_one (k : CharClass) (text : List Char) :
    Run.many isSpace k 1 text =
      (Part.splits (k.admits isSpace) text).map fun s => ⟨[], s.2⟩ := by
  have hs : (Part.splits (k.admits isSpace) text).filter (fun s => 1 ≤ s.1.length) =
      Part.splits (k.admits isSpace) text := by
    refine List.filter_eq_self.2 fun s h => ?_
    exact decide_eq_true (List.length_pos_iff.2 (Part.mem_splits.1 h).1)
  simp [Run.many, Run.splits_eq, List.filter_append, hs]

theorem Regex.runs_many_empty (whole : List Char) (k : CharClass) (least : Nat)
    (text : List Char) :
    (many empty k least).runs isSpace whole text = Run.many isSpace k least text := by
  simp [runs, Run.andThen]

/-- A value is what the group takes. -/
theorem allSame_value (isSpace : Char → Bool) (whole : List Char) (k : CharClass)
    (name text : List Char) :
    AllSame [name] (Part.value (k.admits isSpace) name text)
      (((Regex.many .empty k 1).runs isSpace whole text).map (Run.capture text)) := by
  rw [Regex.runs_many_empty, Run.many_one, List.map_map, Part.value]
  refine List.forall₂_map_left_iff.2 (List.forall₂_map_right_iff.2 (List.forall₂_same.2 ?_))
  intro s h
  obtain ⟨hne, -, rfl⟩ := Part.mem_splits.1 h
  refine ⟨rfl, rfl, ?_⟩
  simp [boundBy, bound?, Run.capture, Choice.pair?, hne]

theorem AllSame.group {names : List (List Char)} {part : Part} {text : List Char}
    {runs : List Run} (h : AllSame names (part text) runs) :
    AllSame names (part.group text) (runs ++ [Run.without names.length text]) := by
  refine List.rel_append (List.forall₂_map_left_iff.2 (h.imp fun w u hs => ?_)) (.cons ?_ .nil)
  · exact ⟨hs.rest_eq, hs.length_eq, hs.bound_eq⟩
  · exact ⟨rfl, List.length_replicate, boundBy_replicate_none _ _⟩

namespace Pattern

theorem length_groups_regexOnto (p : Pattern) :
    (p.regexOnto .empty).groups.length = p.names.length := by
  rw [groups_regexOnto, names_eq_parameters]
  simp [Regex.groups]

/-- The runs of the expression of a pattern are the ways of the pattern. -/
theorem same_runs {whole : List Char} (p : Pattern) {r : Regex} {text : List Char}
    (h : r.runs isSpace whole text = [⟨[], text⟩]) :
    AllSame p.names (p.ways text) ((p.regexOnto r).runs isSpace whole text) := by
  induction p generalizing r text with
  | empty =>
    rw [regexOnto, h]
    exact .cons (same_nil text) .nil
  | literal before c ih =>
    have hl := (ih h).andThen (allSame_literal c)
    rw [List.append_nil] at hl
    rw [names_literal]
    exact hl
  | segment before name ih =>
    have hv := allSame_value isSpace whole .segment name
    rw [CharClass.admits_segment] at hv
    rw [names_segment]
    exact (ih h).andThen hv
  | wildcard before ih =>
    have hv := allSame_value isSpace whole .anything wildcardName
    rw [CharClass.admits_anything] at hv
    rw [names_wildcard]
    exact (ih h).andThen hv
  | group before body ihb ih =>
    rw [names_group, regexOnto, Regex.runs, length_groups_regexOnto]
    exact (ihb h).andThen fun rest => (ih rfl).group

end Pattern

end Same

/-! ## The query and the anchors -/

section Whole

variable {isSpace : Char → Bool}

namespace Pattern

/-- The runs of the query and of the anchor behind it. -/
def tailRuns (isSpace : Char → Bool) (whole rest : List Char) : List Run :=
  (queryRegex.runs isSpace whole rest ++ [Run.without 1 rest]).flatMap fun v =>
    v.andThen fun rest => Run.stay (rest = []) rest

theorem runs_queryRegex (whole query : List Char) :
    queryRegex.runs isSpace whole ('?' :: query) =
      (Run.splits (fun _ => true) query).map fun s => ⟨[some s.1], s.2⟩ := by
  calc queryRegex.runs isSpace whole ('?' :: query)
      = (Run.many isSpace .anything 0 query).map (Run.capture query) := by
        simp [queryRegex, Regex.runs, Run.andThen, Run.char, Run.stay]
    _ = (Run.splits (fun _ => true) query).map fun s => Run.capture query ⟨[], s.2⟩ := by
        simp [Run.many, CharClass.admits_anything, Function.comp_def]
    _ = _ := by
        refine List.map_congr_left fun s hs => ?_
        rw [Run.capture, Run.eq_append_of_mem_splits hs]
        simp

/-- Behind a path only a query is left. -/
theorem tailRuns_eq (whole rest : List Char) :
    tailRuns isSpace whole rest =
      (Captures.ofRest rest).toList.map fun r => ⟨[r.query], []⟩ := by
  rcases rest with _ | ⟨c, rest⟩
  · rfl
  · by_cases hc : c = '?'
    · subst hc
      rw [tailRuns, runs_queryRegex, List.flatMap_append, List.flatMap_map]
      have hs : ∀ s : List Char × List Char,
          (⟨[some s.1], s.2⟩ : Run).andThen (fun rest => Run.stay (rest = []) rest) =
            if s.2 = [] then [⟨[some s.1], []⟩] else [] := by
        intro s
        by_cases h : s.2 = [] <;> simp [Run.andThen, Run.stay, h]
      simp only [hs, Run.flatMap_splits fun value => (⟨[some value], []⟩ : Run)]
      simp [Run.andThen, Run.stay, Run.without, Captures.ofRest]
    · simp [tailRuns, queryRegex, Regex.runs, Run.andThen, Run.char, Run.stay, Run.without,
        Captures.ofRest, hc]

/-- The runs of a whole expression are those of the pattern that leave a query. -/
theorem runs_regex (p : Pattern) (whole text : List Char) :
    p.regex.runs isSpace whole text =
      ((p.regexOnto (.start .empty)).runs isSpace whole text).flatMap fun u =>
        u.andThen (tailRuns isSpace whole) := by
  simp only [regex, Regex.runs, List.flatMap_assoc, Run.flatMap_andThen]
  rfl

/-- No run starts behind the start of the text. -/
theorem runs_regexOnto_eq_nil (p : Pattern) {r : Regex} {whole text : List Char}
    (h : r.runs isSpace whole text = []) : (p.regexOnto r).runs isSpace whole text = [] := by
  induction p with
  | empty => exact h
  | literal before c ih => rw [regexOnto, Regex.runs, ih, List.flatMap_nil]
  | segment before name ih => rw [regexOnto, Regex.runs, ih, List.flatMap_nil]
  | wildcard before ih => rw [regexOnto, Regex.runs, ih, List.flatMap_nil]
  | group before body ihb ih => rw [regexOnto, Regex.runs, ihb, List.flatMap_nil]

theorem runs_regex_eq_nil (p : Pattern) {whole text : List Char} (h : text ≠ whole) :
    p.regex.runs isSpace whole text = [] := by
  rw [runs_regex, runs_regexOnto_eq_nil, List.flatMap_nil]
  simp [Regex.runs, Run.andThen, Run.stay, h]

theorem capturesFrom?_eq_none (p : Pattern) {whole : List Char} :
    ∀ {text : List Char}, text.length < whole.length →
      p.regex.capturesFrom? isSpace whole text = none
  | [], h => by
    rw [Regex.capturesFrom?, runs_regex_eq_nil p (by rintro rfl; omega)]
    rfl
  | c :: text, h => by
    rw [List.length_cons] at h
    rw [Regex.capturesFrom?, runs_regex_eq_nil p (by rintro rfl; simp at h),
      capturesFrom?_eq_none p (by omega)]
    rfl

/-- The captures are those of the first run from the start of the text. -/
theorem captures?_regex (p : Pattern) (url : List Char) :
    p.regex.captures? isSpace url =
      (p.regex.runs isSpace url url).head?.map fun w => (Run.capture url w).groups := by
  rcases url with _ | ⟨c, url⟩
  · rfl
  · rw [Regex.captures?, Regex.capturesFrom?, capturesFrom?_eq_none p (by simp), Option.or_none]

end Pattern

/-! ## Reading the parameters off the groups -/

/-- The bindings by number are those in order. -/
theorem filterMap_zipIdx_bound? :
    ∀ (names : List (List Char)) (groups captures : List (Option (List Char))) {k : Nat}
      {query : Option (List Char)}, groups.length = names.length →
      captures.drop (k + 1) = groups ++ [query] →
      (names.zipIdx k).filterMap (fun (name, i) => bound? name captures[i + 1]?.join) =
        boundBy names groups
  | [], _, _, _, _, _, _ => by simp [boundBy]
  | name :: names, group :: groups, captures, k, query, hl, hd => by
    have hk : captures[k + 1]? = some group := by
      rw [← List.head?_drop, hd]
      rfl
    have hd' : captures.drop (k + 1 + 1) = groups ++ [query] := by
      rw [← List.drop_drop, hd]
      rfl
    have ih := filterMap_zipIdx_bound? names groups captures (by simpa using hl) hd'
    rw [List.zipIdx_cons, boundBy, List.zip_cons_cons, List.filterMap_cons, List.filterMap_cons, ih]
    simp only [hk, Option.join_some]
    rfl

theorem Found.ofCaptures_eq {names : List (List Char)} {groups : List (Option (List Char))}
    (h : groups.length = names.length) (all query : Option (List Char)) :
    ofCaptures names (all :: (groups ++ [query])) =
      (⟨boundBy names groups⟩, query.map String.ofList) := by
  have hq : (all :: (groups ++ [query]))[names.length + 1]? = some query := by
    rw [List.getElem?_cons_succ, ← h, List.getElem?_concat_length]
  rw [ofCaptures, filterMap_zipIdx_bound? names groups _ h rfl, hq]
  rfl

namespace Pattern

/-- What the groups of a run report once the query is read. -/
def reportRun (names : List (List Char)) (whole : List Char) (u : Run) : Option Found :=
  (Captures.ofRest u.rest).map fun r =>
    Found.ofCaptures names (some whole :: (u.groups ++ [r.query]))

theorem report_eq_reportRun {names : List (List Char)} {w : Way} {u : Run} (h : Same names w u)
    (whole : List Char) : report w = reportRun names whole u := by
  rw [report, reportRun, h.rest_eq]
  refine Option.map_congr fun r hr => ?_
  have hp : r.found.1 = ⟨[]⟩ := congrArg Prod.fst (Captures.found_of_ofRest hr)
  rw [Found.ofCaptures_eq h.length_eq, h.bound_eq, Found.after, hp, List.append_nil]
  rfl

theorem findSome?_report {names : List (List Char)} {ways : List Way} {runs : List Run}
    (h : AllSame names ways runs) (whole : List Char) :
    ways.findSome? report = runs.findSome? (reportRun names whole) := by
  induction h with
  | nil => rfl
  | cons h _ ih => rw [List.findSome?_cons, List.findSome?_cons, report_eq_reportRun h, ih]

theorem head?_andThen_tailRuns (isSpace : Char → Bool) (names : List (List Char))
    (whole : List Char) (u : Run) :
    ((u.andThen (tailRuns isSpace whole)).head?.map fun w =>
      Found.ofCaptures names (Run.capture whole w).groups) = reportRun names whole u := by
  rw [Run.andThen, tailRuns_eq, reportRun]
  cases Captures.ofRest u.rest with
  | none => rfl
  | some r => simp [Run.capture]

end Pattern

/-- What a match reports is read off the groups of the rule by their numbers. -/
theorem Compiled.extract_eq_captures? (c : Compiled) (isSpace : Char → Bool) (url : List Char) :
    c.extract url =
      (c.pattern.regex.captures? isSpace url).map (Found.ofCaptures c.pattern.names) := by
  have hs : AllSame c.pattern.names (c.pattern.ways url)
      ((c.pattern.regexOnto (.start .empty)).runs isSpace url url) :=
    c.pattern.same_runs (by simp [Regex.runs, Run.andThen, Run.stay])
  calc c.extract url
      = (c.pattern.ways url).findSome? Pattern.report := by
        rw [extract_eq_map_found, Pattern.map_found_search]
    _ = ((c.pattern.regexOnto (.start .empty)).runs isSpace url url).findSome?
          (Pattern.reportRun c.pattern.names url) := Pattern.findSome?_report hs url
    _ = _ := by
        rw [Pattern.captures?_regex, Pattern.runs_regex, List.head?_flatMap, List.map_findSome?,
          List.map_findSome?]
        congr 1
        funext u
        rw [← Pattern.head?_andThen_tailRuns isSpace]
        simp [Function.comp_def]

/-- The rule of a pattern reads as its tokens between the anchors and before the query. It captures
what each name is bound to, in their order, and the query last, and what a match reports is found at
those numbers. -/
theorem Pattern.rule_reads_as_pattern {text : List Char} {p : Pattern} (h : ofText text = .ok p) :
    Regex.read? p.rule = some p.regex ∧
      p.tokens = Token.scan text ∧
      p.names = (Token.parameters (Token.scan text)).map Prod.fst ∧
      p.regex.groups = (Token.parameters (Token.scan text)).map
        (fun parameter => .many .empty parameter.2 1) ++ [.many .empty .anything 0] ∧
      p.regex.groups.length = p.names.length + 1 ∧
      ∀ (isSpace : Char → Bool) (url : List Char),
        (Compiled.ofPattern (String.ofList text) p).extract url =
          (p.regex.captures? isSpace url).map (Found.ofCaptures p.names) := by
  have ht := tokens_of_ofText h
  refine ⟨Regex.read?_rule p, ht, ?_, ?_, ?_, fun isSpace url => ?_⟩
  · rw [← ht]
    exact p.names_eq_parameters
  · rw [← ht]
    exact p.groups_regex
  · rw [groups_regex, names_eq_parameters]
    simp
  · exact Compiled.extract_eq_captures? _ isSpace url

theorem Pattern.rule_reads_as_pattern_reserved :
    ∃ p, ofText "/a.(b+:x)*".toList = .ok p ∧
      p.rule = "^/a\\.(?:b\\+([^/?]+))?([\\s\\S]+)(?:\\?([\\s\\S]*))?$".toList ∧
      Regex.read? p.rule = some p.regex ∧ p.regex.groups.length = 3 := by
  refine ⟨_, rfl, by decide, ?_, ?_⟩
  · exact (@rule_reads_as_pattern "/a.(b+:x)*".toList _ rfl).1
  · exact (@rule_reads_as_pattern "/a.(b+:x)*".toList _ rfl).2.2.2.2.1

end Whole

end PathRouting
