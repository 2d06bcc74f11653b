import Mathlib.Data.List.TakeWhile
import PathRouting.Pattern.Token

/-!
# A text and its tokens determine each other

A colon and a segment take up the word characters behind them, so where tokens stand apart none of
them does any more (`apart_scan`). Tokens that stand apart are those that their text is scanned to
(`scan_flatMap_source`), so names can be changed in the tokens as well as in the text, and texts are
scanned one after the other where the first takes up nothing of the second (`scan_append`).
-/

namespace PathRouting.Token

variable {tokens : List Token}

/-- Whether a token takes up word characters behind it. -/
def takesWord : Token → Bool
  | literal c => c = ':'
  | segment _ => true
  | _ => false

/-- What a token that was scanned is like by itself. -/
def Scanned : Token → Prop
  | literal c => c ≠ '*' ∧ c ≠ '(' ∧ c ≠ ')'
  | segment name => name ≠ [] ∧ ∀ c ∈ name, isWordChar c = true
  | _ => True

/-- Tokens that take up nothing of those behind them. -/
def Apart : List Token → Prop
  | [] => True
  | t :: tokens => t.Scanned ∧ (t.takesWord = true → tokens.takeWhile isWord = []) ∧ Apart tokens

theorem source_ne_nil (t : Token) : t.source ≠ [] := by
  cases t <;> simp [source]

theorem prepend_of_scanned {c : Char} (h : Scanned (literal c)) (hc : c ≠ ':')
    (tokens : List Token) : prepend c tokens = literal c :: tokens := by
  obtain ⟨hs, ho, hp⟩ := h
  unfold prepend
  split <;> first | rfl | contradiction

theorem Apart.dropWhile (h : Apart tokens) : Apart (tokens.dropWhile isWord) := by
  induction tokens with
  | nil => exact h
  | cons t tokens ih =>
    rw [List.dropWhile_cons]
    split
    · exact ih h.2.2
    · exact h

theorem takeWhile_dropWhile_isWord (tokens : List Token) :
    (tokens.dropWhile isWord).takeWhile isWord = [] := by
  induction tokens with
  | nil => rfl
  | cons t tokens ih =>
    rw [List.dropWhile_cons]
    split
    · exact ih
    · next ht => rw [List.takeWhile_cons, if_neg ht]

theorem isWordChar_of_mem_source {t : Token} (ht : t.isWord = true) :
    ∀ c ∈ t.source, isWordChar c = true := by
  cases t with
  | literal c => simpa [source, isWord] using ht
  | _ => cases ht

theorem Apart.colon (h : Apart tokens) : Apart (colon tokens) := by
  unfold Token.colon
  split
  · next hn =>
    refine ⟨⟨by decide, by decide, by decide⟩, fun _ => ?_, h⟩
    refine List.eq_nil_iff_forall_not_mem.2 fun t ht => source_ne_nil t ?_
    exact List.flatMap_eq_nil_iff.1 hn t ht
  · next name hn =>
    refine ⟨⟨hn, fun c hc => ?_⟩, fun _ => takeWhile_dropWhile_isWord tokens, h.dropWhile⟩
    obtain ⟨t, ht, hc⟩ := List.mem_flatMap.1 hc
    exact isWordChar_of_mem_source (List.mem_takeWhile_imp ht) c hc

theorem Apart.prepend (h : Apart tokens) (c : Char) : Apart (prepend c tokens) := by
  unfold Token.prepend
  split
  · exact h.colon
  · exact ⟨trivial, nofun, h⟩
  · exact ⟨trivial, nofun, h⟩
  · exact ⟨trivial, nofun, h⟩
  · next hc hs ho hp => exact ⟨⟨hs, ho, hp⟩, fun ht => absurd (of_decide_eq_true ht) hc, h⟩

/-- The tokens of a text stand apart. -/
theorem apart_scan (text : List Char) : Apart (scan text) := by
  induction text with
  | nil => trivial
  | cons c text ih => exact ih.prepend c

/-- Tokens that stand apart are read back from their text. -/
theorem scan_flatMap_source (h : Apart tokens) : scan (tokens.flatMap source) = tokens := by
  induction tokens with
  | nil => rfl
  | cons t tokens ih =>
    obtain ⟨ht, hw, h⟩ := h
    have ih := ih h
    have hr : t.takesWord = true → (tokens.flatMap source).takeWhile isWordChar = [] := fun hc => by
      rw [← takeWhile_isWord_scan, ih, hw hc]
      rfl
    cases t with
    | literal c =>
      by_cases hc : c = ':'
      · subst hc
        rw [List.flatMap_cons, source, List.singleton_append, scan_colon, if_pos (hr rfl), ih]
      · rw [List.flatMap_cons, source, List.singleton_append, scan_cons, ih,
          prepend_of_scanned ht hc]
    | segment name =>
      have hd : (tokens.flatMap source).dropWhile isWordChar = tokens.flatMap source := by
        have hp := List.takeWhile_append_dropWhile (p := isWordChar) (l := tokens.flatMap source)
        rwa [hr rfl] at hp
      rw [List.flatMap_cons, source, List.cons_append, scan_colon,
        List.takeWhile_append_of_pos ht.2, hr rfl, List.append_nil, if_neg ht.1,
        List.dropWhile_append_of_pos ht.2, hd, ih]
    | wildcard => exact congrArg (Token.wildcard :: ·) ih
    | opening => exact congrArg (Token.opening :: ·) ih
    | closing => exact congrArg (Token.closing :: ·) ih

/-- Whether a colon or a name at the end of a text takes up the start of another. -/
def joins (s t : List Char) : Bool :=
  (scan s).getLast?.any takesWord && t.head?.any isWordChar

theorem joins_append {s t u : List Char} (ht : joins s t = false) (hu : joins s u = false) :
    joins s (t ++ u) = false := by
  cases t with
  | nil => exact hu
  | cons c t => exact ht

theorem joins_cons_eq_false {c : Char} (h : isWordChar c = false) (s t : List Char) :
    joins s (c :: t) = false := by
  rw [joins, List.head?_cons, Option.any_some, h, Bool.and_false]

theorem takeWhile_isWord_scan_eq_nil {text : List Char} (h : text.head?.any isWordChar = false) :
    (scan text).takeWhile isWord = [] := by
  have hn : text.takeWhile isWordChar = [] := by
    cases text with
    | nil => rfl
    | cons c text => simpa using h
  rw [← takeWhile_isWord_scan] at hn
  refine List.eq_nil_iff_forall_not_mem.2 fun t ht => source_ne_nil t ?_
  exact List.flatMap_eq_nil_iff.1 hn t ht

theorem Apart.append {others : List Token} (ha : Apart tokens) (hb : Apart others)
    (h : tokens.getLast?.any takesWord = true → others.takeWhile isWord = []) :
    Apart (tokens ++ others) := by
  induction tokens with
  | nil => exact hb
  | cons t tokens ih =>
    obtain ⟨ht, hw, ha⟩ := ha
    cases tokens with
    | nil => exact ⟨ht, fun hc => h (by simpa using hc), hb⟩
    | cons u tokens =>
      refine ⟨ht, fun hc => ?_, ih ha (by simpa using h)⟩
      have hu := hw hc
      rw [List.takeWhile_cons] at hu
      change (u :: (tokens ++ others)).takeWhile isWord = []
      rw [List.takeWhile_cons]
      split at hu
      · cases hu
      · next hf => rw [if_neg hf]

/-- Texts that are not joined are scanned one after the other. -/
theorem scan_append {s t : List Char} (h : joins s t = false) :
    scan (s ++ t) = scan s ++ scan t := by
  have hw : (scan s).getLast?.any takesWord = true → (scan t).takeWhile isWord = [] := fun hs => by
    rw [joins, hs, Bool.true_and] at h
    exact takeWhile_isWord_scan_eq_nil h
  have ha := scan_flatMap_source ((apart_scan s).append (apart_scan t) hw)
  rwa [List.flatMap_append, flatMap_source_scan, flatMap_source_scan] at ha

end PathRouting.Token
