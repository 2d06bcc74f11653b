import Mathlib.Logic.ExistsUnique
import PathRouting.Proofs.Matching
import PathRouting.Proofs.Regex.Rule

/-!
# Filling a pattern and matching it are inverse

Where no groups are, every segment ends at a slash, a question mark or the end, and a wildcard ends
the tokens, the values that a url was filled with are read back. Two derivations of such a url
choose the same, or the one that leaves less of the url comes first (`Spells.eq_or_precedes`): the
value of a segment has to stop where the separator is, and only a wildcard can stop early. So the
derivation that was filled in is the first one (`extract_fill`), and no other values give the same
url (`fill_injective`).
-/

namespace PathRouting

/-- A query with its question mark, or nothing. -/
def queryText : Option (List Char) → List Char
  | none => []
  | some query => '?' :: query

theorem queryText_cases (query : Option (List Char)) :
    queryText query = [] ∨ ∃ q, queryText query = '?' :: q := by
  rcases query with _ | q
  · exact .inl rfl
  · exact .inr ⟨q, rfl⟩

theorem tail?_queryText (query : Option (List Char)) : (queryText query).tail? = query := by
  cases query <;> rfl

theorem exists_queryText {rest : List Char} (h : rest = [] ∨ ∃ query, rest = '?' :: query) :
    ∃ query, rest = queryText query := by
  rcases h with rfl | ⟨query, rfl⟩
  · exact ⟨none, rfl⟩
  · exact ⟨some query, rfl⟩

namespace Token

/-- The text of the tokens with a value in the place of each parameter. -/
def fill : List Token → List (List Char) → List Char
  | [], _ => []
  | literal c :: tokens, values => c :: fill tokens values
  | segment _ :: tokens, value :: values => value ++ fill tokens values
  | wildcard :: tokens, value :: values => value ++ fill tokens values
  | segment _ :: _, [] | wildcard :: _, [] => []
  | opening :: tokens, values | closing :: tokens, values => fill tokens values

/-- One value for each parameter, none of them empty, and those of segments without slashes and
question marks. -/
inductive Fits : List Token → List (List Char) → Prop
  | nil : Fits [] []
  | literal (c : Char) {tokens values} (h : Fits tokens values) : Fits (literal c :: tokens) values
  | segment (name : List Char) {value tokens values} (hne : value ≠ [])
    (hv : ∀ c ∈ value, c ≠ '/' ∧ c ≠ '?') (h : Fits tokens values) :
    Fits (segment name :: tokens) (value :: values)
  | wildcard {value tokens values} (hne : value ≠ []) (h : Fits tokens values) :
    Fits (wildcard :: tokens) (value :: values)

/-- Whether there are no groups, each segment ends the tokens or stands before a literal slash or
question mark, and a wildcard ends the tokens. -/
def separated : List Token → Bool
  | [] => true
  | literal _ :: tokens => separated tokens
  | [segment _] => true
  | segment _ :: literal c :: tokens => (c = '/' || c = '?') && separated tokens
  | [wildcard] => true
  | _ => false

variable {tokens : List Token} {values : List (List Char)}

theorem separated_of_segment {name : List Char} (h : separated (segment name :: tokens) = true) :
    separated tokens = true ∧ (tokens = [] ∨
      ∃ c behind, tokens = literal c :: behind ∧ isSegmentChar c = false) := by
  rcases tokens with _ | ⟨_ | _, tokens⟩
  · exact ⟨rfl, .inl rfl⟩
  · simp only [separated, Bool.and_eq_true, Bool.or_eq_true, decide_eq_true_eq] at h
    refine ⟨h.2, .inr ⟨_, _, rfl, ?_⟩⟩
    rcases h.1 with rfl | rfl <;> rfl
  all_goals cases h

theorem eq_nil_of_separated (h : separated (wildcard :: tokens) = true) : tokens = [] := by
  cases tokens with
  | nil => rfl
  | cons t tokens => cases h

/-- The choices that bind the parameters to values. -/
def bindings (tokens : List Token) (values : List (List Char)) : List Choice :=
  List.zipWith .bind (names tokens) values

namespace Fits

theorem length_eq (h : Fits tokens values) : values.length = (names tokens).length := by
  induction h with
  | nil => rfl
  | literal c _ ih => simpa using ih
  | segment name _ _ _ ih => simpa using ih
  | wildcard _ _ ih => simpa using ih

theorem spells (h : Fits tokens values) : Spells tokens (bindings tokens values)
    (fill tokens values) := by
  induction h with
  | nil => exact .nil
  | literal c _ ih => exact .literal c ih
  | segment name hne hv _ ih => exact .segment name hne hv ih
  | wildcard hne _ ih => exact .wildcard hne ih

theorem eq_of_bindings_eq {values' : List (List Char)} (h : Fits tokens values)
    (h' : Fits tokens values') (hb : bindings tokens values = bindings tokens values') :
    values = values' := by
  induction h generalizing values' with
  | nil =>
    cases h'
    rfl
  | literal c _ ih =>
    cases h' with
    | literal _ h' => exact ih h' hb
  | segment name _ _ _ ih =>
    cases h' with
    | segment _ _ _ h' =>
      obtain ⟨hv, hbs⟩ := List.cons.inj hb
      cases hv
      rw [ih h' hbs]
  | wildcard _ _ ih =>
    cases h' with
    | wildcard _ h' =>
      obtain ⟨hv, hbs⟩ := List.cons.inj hb
      cases hv
      rw [ih h' hbs]

end Fits

theorem filterMap_pair?_bindings (tokens : List Token) (values : List (List Char)) :
    (bindings tokens values).filterMap Choice.pair? =
      ((names tokens).map String.ofList).zip (values.map String.ofList) := by
  rw [bindings, List.zip_map, ← List.map_uncurry_zip_eq_zipWith, List.filterMap_map,
    ← List.filterMap_eq_map]
  rfl

end Token

namespace Spells

variable {tokens : List Token} {choices a b : List Choice} {path u v r s : List Char}

/-- What separated tokens spell is what they are filled with. -/
theorem exists_fits (hs : Token.separated tokens = true) (h : Spells tokens choices path) :
    ∃ values, Token.Fits tokens values ∧ path = Token.fill tokens values := by
  induction h with
  | nil => exact ⟨[], .nil, rfl⟩
  | literal c _ ih =>
    obtain ⟨values, hf, rfl⟩ := ih hs
    exact ⟨values, .literal c hf, rfl⟩
  | @segment name value _ _ _ hne hv _ ih =>
    obtain ⟨values, hf, rfl⟩ := ih (Token.separated_of_segment hs).1
    exact ⟨value :: values, .segment name hne hv hf, rfl⟩
  | @wildcard value _ _ _ hne h ih =>
    obtain rfl := Token.eq_nil_of_separated hs
    obtain ⟨values, hf, rfl⟩ := ih rfl
    exact ⟨value :: values, .wildcard hne hf, rfl⟩
  | keep => cases hs
  | closing => cases hs
  | drop => cases hs

/-- A wildcard at the end takes all that is left. -/
theorem exists_append (hs : Token.separated tokens = true) (hw : .wildcard ∈ tokens)
    (h : Spells tokens choices path) (rest : List Char) :
    ∃ choices, Spells tokens choices (path ++ rest) := by
  induction h with
  | nil => cases hw
  | literal c _ ih =>
    obtain ⟨choices, h⟩ := ih hs (by simpa using hw)
    exact ⟨choices, .literal c h⟩
  | segment name hne hv _ ih =>
    obtain ⟨choices, h⟩ := ih (Token.separated_of_segment hs).1 (by simpa using hw)
    rw [List.append_assoc]
    exact ⟨_, .segment name hne hv h⟩
  | @wildcard value _ _ _ hne h _ =>
    obtain rfl := Token.eq_nil_of_separated hs
    cases h
    have hne' : value ++ rest ≠ [] := fun he => hne (List.append_eq_nil_iff.1 he).1
    exact ⟨_, by simpa using Spells.wildcard hne' .nil⟩
  | keep => cases hs
  | closing => cases hs
  | drop => cases hs

theorem takeWhile_value {v x : List Char} (hv : ∀ c ∈ v, isSegmentChar c = true)
    (hx : ∀ c ∈ x.head?, isSegmentChar c = false) : (v ++ x).takeWhile isSegmentChar = v := by
  rw [List.takeWhile_append_of_pos hv]
  rcases x with _ | ⟨c, x⟩
  · simp
  · simp [hx c rfl]

/-- Where a value can go on in neither text, the values are the same. -/
theorem value_eq {v w x y : List Char} (hv : ∀ c ∈ v, isSegmentChar c = true)
    (hw : ∀ c ∈ w, isSegmentChar c = true) (hx : ∀ c ∈ x.head?, isSegmentChar c = false)
    (hy : ∀ c ∈ y.head?, isSegmentChar c = false) (h : v ++ x = w ++ y) : v = w ∧ x = y := by
  obtain rfl : v = w := by rw [← takeWhile_value hv hx, h, takeWhile_value hw hy]
  exact ⟨rfl, List.append_cancel_left h⟩

/-- Behind a segment stands a separator, or nothing but a query. -/
theorem head?_of_separated {name : List Char}
    (hs : Token.separated (.segment name :: tokens) = true) (h : Spells tokens choices path)
    (hr : r = [] ∨ ∃ query, r = '?' :: query) :
    ∀ c ∈ (path ++ r).head?, isSegmentChar c = false := by
  rcases (Token.separated_of_segment hs).2 with rfl | ⟨c, behind, rfl, hc⟩
  · cases h
    rcases hr with rfl | ⟨query, rfl⟩ <;> simp [isSegmentChar]
  · cases h
    simpa using hc

/-- Two derivations of a url choose the same, or the one that leaves less comes first. -/
theorem eq_or_precedes (hs : Token.separated tokens = true) (ha : Spells tokens a u)
    (hb : Spells tokens b v) (h : u ++ r = v ++ s) (hr : r = [] ∨ ∃ query, r = '?' :: query)
    (hq : s = [] ∨ ∃ query, s = '?' :: query) (hw : .wildcard ∈ tokens → s = []) :
    a = b ∧ r = s ∨ Precedes b a := by
  induction ha generalizing b v with
  | nil =>
    cases hb
    exact .inl ⟨rfl, h⟩
  | literal c _ ih =>
    cases hb with
    | literal _ hb => exact ih hs hb (List.cons.inj h).2 (by simpa using hw)
  | segment name _ hv ha ih =>
    cases hb with
    | segment _ _ hv' hb =>
      rw [List.append_assoc, List.append_assoc] at h
      have hsegment : ∀ value : List Char, (∀ c ∈ value, c ≠ '/' ∧ c ≠ '?') →
          ∀ c ∈ value, isSegmentChar c = true := fun _ hv c hc => by
        simpa [isSegmentChar] using hv c hc
      obtain ⟨rfl, he⟩ := value_eq (hsegment _ hv) (hsegment _ hv') (head?_of_separated hs ha hr)
        (head?_of_separated hs hb hq) h
      rcases ih (Token.separated_of_segment hs).1 hb he (by simpa using hw) with ⟨rfl, rfl⟩ | hp
      · exact .inl ⟨rfl, rfl⟩
      · exact .inr (.cons _ hp)
  | @wildcard value _ _ _ _ ha _ =>
    obtain rfl := Token.eq_nil_of_separated hs
    cases ha
    cases hb with
    | @wildcard value' _ _ _ _ hb =>
      cases hb
      obtain rfl := hw List.mem_cons_self
      obtain rfl : value ++ r = value' := by simpa using h
      rcases r with _ | ⟨c, r⟩
      · exact .inl ⟨by simp, rfl⟩
      · exact .inr (.longer _ _ (by simp))
  | keep => cases hs
  | closing => cases hs
  | drop => cases hs

end Spells

namespace Token

variable {tokens : List Token} {values values' : List (List Char)}
  {query query' : Option (List Char)}

/-- The derivation of a url that was filled in. -/
def Fits.derivation (h : Fits tokens values) (query : Option (List Char)) :
    Derivation tokens (fill tokens values ++ queryText query) :=
  ⟨bindings tokens values, fill tokens values, queryText query, h.spells, rfl,
    queryText_cases query⟩

theorem Fits.isFirst_derivation (hs : separated tokens = true) (h : Fits tokens values)
    (hq : .wildcard ∈ tokens → query = none) : (h.derivation query).IsFirst := by
  intro e hne
  have hw : .wildcard ∈ tokens → queryText query = [] := fun hm => by rw [hq hm]; rfl
  rcases e.spells.eq_or_precedes hs h.spells e.url_eq.symm e.rest_eq (queryText_cases query) hw with
    ⟨hc, hr⟩ | hp
  · exact absurd (Derivation.eq_of_rest_eq hc hr) hne
  · exact hp

/-- No other values and no other query give the same url. -/
theorem fill_injective (hs : separated tokens = true) (h : Fits tokens values)
    (h' : Fits tokens values') (hq : .wildcard ∈ tokens → query = none)
    (hq' : .wildcard ∈ tokens → query' = none)
    (he : fill tokens values ++ queryText query = fill tokens values' ++ queryText query') :
    values = values' ∧ query = query' := by
  have hw : .wildcard ∈ tokens → queryText query = [] := fun hm => by rw [hq hm]; rfl
  have hw' : .wildcard ∈ tokens → queryText query' = [] := fun hm => by rw [hq' hm]; rfl
  have hp := h.spells.eq_or_precedes hs h'.spells he (queryText_cases query)
    (queryText_cases query') hw'
  have hp' := h'.spells.eq_or_precedes hs h.spells he.symm (queryText_cases query')
    (queryText_cases query) hw
  rcases hp with ⟨hb, hr⟩ | hp
  · have hr' := congrArg List.tail? hr
    rw [tail?_queryText, tail?_queryText] at hr'
    exact ⟨h.eq_of_bindings_eq h' hb, hr'⟩
  · rcases hp' with ⟨hb, -⟩ | hp'
    · rw [hb] at hp
      exact absurd hp hp.asymm
    · exact absurd hp' hp.asymm

end Token

namespace Compiled

variable {source : String} {c : Compiled}

theorem names_eq (h : compile source = .ok c) :
    c.names = (Token.names (Token.scan source.toList)).map String.ofList := by
  rw [names, Pattern.names, Pattern.tokens_of_ofText (of_compile_eq_ok h).2]

theorem isMatch_fill (h : compile source = .ok c) {values : List (List Char)}
    (hf : Token.Fits (Token.scan source.toList) values) {query : Option (List Char)} {url : String}
    (hu : url.toList = Token.fill (Token.scan source.toList) values ++ queryText query) :
    c.isMatch url = true :=
  (isMatch_iff h url).2 (hu ▸ ⟨hf.derivation query⟩)

/-- A url that was filled in gives back the values and the query. -/
theorem extract_fill (h : compile source = .ok c)
    (hs : Token.separated (Token.scan source.toList) = true) {values : List (List Char)}
    (hf : Token.Fits (Token.scan source.toList) values) {query : Option (List Char)}
    (hq : .wildcard ∈ Token.scan source.toList → query = none) :
    c.extract (Token.fill (Token.scan source.toList) values ++ queryText query) =
      some (⟨c.names.zip (values.map String.ofList)⟩, query.map String.ofList) := by
  rcases extract_cases h (Token.fill (Token.scan source.toList) values ++ queryText query) with
    ⟨-, hn⟩ | ⟨d, hd, hx⟩
  · exact absurd ⟨hf.derivation query⟩ hn
  · rw [hx, (hf.isFirst_derivation hs hq).eq hd, names_eq h, Derivation.params, Derivation.query]
    simp only [Token.Fits.derivation, Token.filterMap_pair?_bindings, tail?_queryText]

/-- A url that matches was filled in. -/
theorem exists_fill (h : compile source = .ok c)
    (hs : Token.separated (Token.scan source.toList) = true) {url : String}
    (hm : c.isMatch url = true) :
    ∃ values query, Token.Fits (Token.scan source.toList) values ∧
      (.wildcard ∈ Token.scan source.toList → query = none) ∧
      url.toList = Token.fill (Token.scan source.toList) values ++ queryText query := by
  obtain ⟨d⟩ := (isMatch_iff h url).1 hm
  by_cases hw : .wildcard ∈ Token.scan source.toList
  · obtain ⟨choices, hc⟩ := d.spells.exists_append hs hw d.rest
    obtain ⟨values, hf, hp⟩ := hc.exists_fits hs
    exact ⟨values, none, hf, fun _ => rfl, by rw [d.url_eq, hp]; simp [queryText]⟩
  · obtain ⟨values, hf, hp⟩ := d.spells.exists_fits hs
    obtain ⟨query, hr⟩ := exists_queryText d.rest_eq
    exact ⟨values, query, hf, fun hm => absurd hm hw, by rw [d.url_eq, hp, hr]⟩

end Compiled

namespace Token

variable {tokens : List Token}

/-- Tokens without parameters need no values. -/
theorem fits_nil (hs : separated tokens = true) (hn : names tokens = []) : Fits tokens [] := by
  induction tokens with
  | nil => exact .nil
  | cons t tokens ih =>
    cases t with
    | literal c => exact .literal c (ih hs (by simpa using hn))
    | segment name => simp at hn
    | wildcard => simp at hn
    | opening => cases hs
    | closing => cases hs

theorem fill_nil (h : Fits tokens []) : fill tokens [] = tokens.flatMap source := by
  induction tokens with
  | nil => rfl
  | cons t tokens ih =>
    cases h with
    | literal c h => rw [fill, ih h]; rfl

end Token

/-- A pattern without parameters is filled in with its own text. -/
theorem Compiled.isMatch_iff_of_names_eq_nil {source : String} {c : Compiled}
    (h : compile source = .ok c) (hs : Token.separated (Token.scan source.toList) = true)
    (hn : c.names = []) (url : String) :
    c.isMatch url = true ↔ url = source ∨ ∃ query, url = source ++ "?" ++ query := by
  have hn' : Token.names (Token.scan source.toList) = [] := by
    rwa [names_eq h, List.map_eq_nil_iff] at hn
  have hf := Token.fits_nil hs hn'
  have hsource : Token.fill (Token.scan source.toList) [] = source.toList := by
    rw [Token.fill_nil hf, Token.flatMap_source_scan]
  have hfill : ∀ query, url.toList = source.toList ++ queryText query →
      url.toList = Token.fill (Token.scan source.toList) [] ++ queryText query :=
    fun query hu => by rw [hsource, hu]
  constructor
  · intro hu
    obtain ⟨values, query, hf', -, hq⟩ := exists_fill h hs hu
    obtain rfl : values = [] := List.length_eq_zero_iff.1 (by rw [hf'.length_eq, hn']; rfl)
    rw [hsource] at hq
    rcases query with _ | query
    · exact .inl (String.toList_inj.1 (by simpa [queryText] using hq))
    · refine .inr ⟨String.ofList query, String.toList_inj.1 ?_⟩
      simpa [queryText] using hq
  · rintro (rfl | ⟨query, rfl⟩)
    · exact isMatch_fill h hf (hfill none (by simp [queryText]))
    · exact isMatch_fill h hf (hfill (some query.toList) (by simp [queryText]))

/-- A pattern whose parameters are separated matches just the urls that are filled in with values,
each with one choice of them, and gives these values back; and one without parameters matches itself
and a query behind it. -/
theorem Compiled.fill_inverse_of_match {source : String} {c : Compiled}
    (h : compile source = .ok c) (hs : Token.separated (Token.scan source.toList) = true) :
    let tokens := Token.scan source.toList
    (∀ values query, Token.Fits tokens values → (.wildcard ∈ tokens → query = none) →
      ∀ url : String, url.toList = Token.fill tokens values ++ queryText query →
        c.isMatch url = true ∧ c.names.length = values.length ∧
        c.captures url = some ⟨c.names.zip (values.map String.ofList)⟩ ∧
        c.extract url.toList =
          some (⟨c.names.zip (values.map String.ofList)⟩, query.map String.ofList)) ∧
    (∀ url, c.isMatch url = true → ∃! filled : List (List Char) × Option (List Char),
      Token.Fits tokens filled.1 ∧ (.wildcard ∈ tokens → filled.2 = none) ∧
      url.toList = Token.fill tokens filled.1 ++ queryText filled.2) ∧
    (c.names = [] →
      ∀ url, c.isMatch url = true ↔ url = source ∨ ∃ query, url = source ++ "?" ++ query) := by
  intro tokens
  refine ⟨fun values query hf hq url hu => ?_, fun url hm => ?_, isMatch_iff_of_names_eq_nil h hs⟩
  · have hx := extract_fill h hs hf hq
    rw [← hu] at hx
    have hl : c.names.length = values.length := by rw [names_eq h, List.length_map, hf.length_eq]
    exact ⟨isMatch_fill h hf hu, hl, by rw [captures, hx, Option.map_some], hx⟩
  · obtain ⟨values, query, hf, hq, hu⟩ := exists_fill h hs hm
    refine ⟨(values, query), ⟨hf, hq, hu⟩, ?_⟩
    rintro filled ⟨hf', hq', hu'⟩
    obtain ⟨hv, hqq⟩ := Token.fill_injective hs hf' hf hq' hq (hu'.symm.trans hu)
    exact Prod.ext hv hqq

theorem Compiled.fill_inverse_of_match_segments :
    ∃ c, compile "/:a?.:a" = .ok c ∧
      c.isMatch "/x.(y?.z?q" = true ∧
      c.extract "/x.(y?.z?q".toList = some (⟨[("a", "x.(y"), ("a", "z")]⟩, some "q") ∧
      ∃! filled : List (List Char) × Option (List Char),
        Token.Fits (Token.scan "/:a?.:a".toList) filled.1 ∧
          (.wildcard ∈ Token.scan "/:a?.:a".toList → filled.2 = none) ∧
          "/x.(y?.z?q".toList =
            Token.fill (Token.scan "/:a?.:a".toList) filled.1 ++ queryText filled.2 := by
  obtain ⟨c, hc⟩ : ∃ c, compile "/:a?.:a" = .ok c := ⟨_, rfl⟩
  obtain ⟨hf, hm, -⟩ := fill_inverse_of_match hc (by decide)
  have hv : Token.Fits (Token.scan "/:a?.:a".toList) ["x.(y".toList, "z".toList] :=
    .literal '/' (.segment _ (by decide) (by simp)
      (.literal '?' (.literal '.' (.segment _ (by decide) (by simp) .nil))))
  have hn : c.names = ["a", "a"] := by
    cases hc
    rfl
  obtain ⟨hu, -, -, hx⟩ := hf _ (some "q".toList) hv (by decide) "/x.(y?.z?q" (by decide)
  rw [hn] at hx
  exact ⟨c, hc, hu, hx, hm "/x.(y?.z?q" hu⟩

end PathRouting
