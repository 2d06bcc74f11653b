import Mathlib.Algebra.Ring.Parity
import Mathlib.Data.List.Induction
import PathRouting.Compiled

/-!
# The message of an error identifies it

A quoted text is read back by undoing its escapes one after the other (`readQuoted?_escape`), with
whatever stands behind it left over (`unquote?_quoted`). So texts that are quoted alike are the same,
and the quote at the end is the first one that no backslash escapes. Behind an escaped text stands an
even number of backslashes (`even_backslashes`), for only the escape of the backslash ends in one.

All that is written of a character shows on its own, so no message breaks a line.
-/

namespace PathRouting

namespace Text

/-! ## Reading quoted text -/

/-- The value of a hexadecimal digit in lower case. -/
def hexDigit? (c : Char) : Option Nat :=
  if '0' ≤ c ∧ c ≤ '9' then some (c.toNat - '0'.toNat)
  else if 'a' ≤ c ∧ c ≤ 'f' then some (c.toNat - 'a'.toNat + 10)
  else none

/-- The character that a backslash makes of the one behind it. -/
def shortEscape? : Char → Option Char
  | '"' => some '"'
  | '\\' => some '\\'
  | 't' => some '\t'
  | 'r' => some '\r'
  | 'n' => some '\n'
  | '0' => some '\x00'
  | _ => none

/-- What has been read of an escape: nothing, a backslash, the letter of a code, or the front of its
digits. -/
inductive Pending where
  | nothing
  | backslash
  | letter
  | code (n : Nat)

/-- Reads quoted text up to the quote that closes it, with what stands behind. -/
def readQuoted? : Pending → List Char → Option (List Char × List Char)
  | _, [] => none
  | .nothing, '"' :: rest => some ([], rest)
  | .nothing, '\\' :: rest => readQuoted? .backslash rest
  | .nothing, c :: rest => (readQuoted? .nothing rest).map (Prod.map (c :: ·) id)
  | .backslash, 'u' :: rest => readQuoted? .letter rest
  | .backslash, c :: rest =>
    (shortEscape? c).bind fun d => (readQuoted? .nothing rest).map (Prod.map (d :: ·) id)
  | .letter, '\x7b' :: rest => readQuoted? (.code 0) rest
  | .letter, _ => none
  | .code n, '\x7d' :: rest => (readQuoted? .nothing rest).map (Prod.map (Char.ofNat n :: ·) id)
  | .code n, c :: rest => (hexDigit? c).bind fun d => readQuoted? (.code (16 * n + d)) rest

/-- The text that a quoted text stands for, and what stands behind the closing quote. -/
def unquote? : List Char → Option (List Char × List Char)
  | '"' :: text => readQuoted? .nothing text
  | _ => none

theorem hexDigit?_digitChar : ∀ d < 16, hexDigit? d.digitChar = some d := by
  decide

theorem readQuoted?_digitChar (n : Nat) {d : Nat} (hd : d < 16) (rest : List Char) :
    readQuoted? (.code n) (d.digitChar :: rest) = readQuoted? (.code (16 * n + d)) rest := by
  have hc : d.digitChar ≠ '\x7d' := by
    revert d
    decide
  rw [readQuoted?]
  · rw [hexDigit?_digitChar d hd, Option.bind_some]
  · exact hc

/-- The digits of a number are read as the number. -/
theorem readQuoted?_toDigits (n : Nat) (rest : List Char) :
    readQuoted? (.code 0) (Nat.toDigits 16 n ++ rest) = readQuoted? (.code n) rest := by
  induction n using Nat.strongRecOn generalizing rest with
  | ind n ih =>
    by_cases hn : n < 16
    · rw [Nat.toDigits_of_lt_base hn, List.singleton_append, readQuoted?_digitChar 0 hn,
        Nat.mul_zero, Nat.zero_add]
    · rw [Nat.toDigits_of_base_le (by decide) (not_lt.1 hn), List.append_assoc, ih _ (by omega),
        List.singleton_append, readQuoted?_digitChar _ (Nat.mod_lt n (by decide)),
        Nat.div_add_mod]

theorem readQuoted?_byCode (c : Char) (rest : List Char) :
    readQuoted? .nothing (byCode c ++ rest) =
      (readQuoted? .nothing rest).map (Prod.map (c :: ·) id) := by
  have hr : readQuoted? .nothing (byCode c ++ rest) =
      readQuoted? (.code 0) (Nat.toDigits 16 c.toNat ++ '\x7d' :: rest) := by
    simp [byCode, readQuoted?]
  rw [hr, readQuoted?_toDigits, readQuoted?, Char.ofNat_toNat]

/-- An escape is read as the character it was written for. -/
theorem readQuoted?_escape (c : Char) (rest : List Char) :
    readQuoted? .nothing (escape c ++ rest) =
      (readQuoted? .nothing rest).map (Prod.map (c :: ·) id) := by
  unfold escape
  split
  iterate 6 · rfl
  · next hq hb _ _ _ _ =>
    split
    · exact readQuoted?_byCode c rest
    · rw [List.singleton_append, readQuoted?]
      · exact hq
      · exact hb

/-- A quoted text is read back, whatever stands behind it. -/
theorem unquote?_quoted (text rest : List Char) :
    unquote? (quoted text ++ rest) = some (text, rest) := by
  rw [quoted, List.cons_append, unquote?, List.append_assoc, List.singleton_append]
  induction text with
  | nil => rfl
  | cons c text ih =>
    rw [List.flatMap_cons, List.append_assoc, readQuoted?_escape, ih]
    rfl

theorem quoted_injective : Function.Injective quoted := by
  intro s t h
  have hs := unquote?_quoted s []
  rw [h, unquote?_quoted, Option.some.injEq, Prod.mk.injEq] at hs
  exact hs.1.symm

/-! ## Quotes and backslashes -/

/-- How many backslashes stand at the end. -/
def backslashes (text : List Char) : Nat :=
  (text.reverse.takeWhile (· = '\\')).length

theorem backslashes_concat (text : List Char) (c : Char) :
    backslashes (text ++ [c]) = if c = '\\' then backslashes text + 1 else 0 := by
  rw [backslashes, List.reverse_append, List.reverse_singleton, List.singleton_append,
    List.takeWhile_cons]
  split <;> simp_all [backslashes]

theorem exists_digit_of_mem (n : Nat) {c : Char} (h : c ∈ Nat.toDigits 16 n) :
    ∃ d < 16, c = d.digitChar := by
  induction n using Nat.strongRecOn with
  | ind n ih =>
    by_cases hn : n < 16
    · rw [Nat.toDigits_of_lt_base hn] at h
      exact ⟨n, hn, List.mem_singleton.1 h⟩
    · rw [Nat.toDigits_of_base_le (by decide) (not_lt.1 hn)] at h
      rcases List.mem_append.1 h with h | h
      · exact ih _ (by omega) h
      · exact ⟨_, Nat.mod_lt n (by decide), List.mem_singleton.1 h⟩

theorem mem_byCode {c d : Char} (h : d ∈ byCode c) :
    d ∈ ['\\', 'u', '\x7b', '\x7d'] ∨ ∃ n < 16, d = n.digitChar := by
  rw [byCode, List.mem_append, List.mem_append] at h
  rcases h with (h | h) | h
  · left
    simp only [List.mem_cons, List.not_mem_nil, or_false] at h ⊢
    rcases h with rfl | rfl | rfl <;> simp
  · exact .inr (exists_digit_of_mem _ h)
  · left
    rw [List.mem_singleton.1 h]
    decide

/-- Only the escape of the quote holds a quote, and only that of the backslash ends in one. -/
theorem escape_cases (c : Char) :
    escape c = ['\\', '"'] ∨ escape c = ['\\', '\\'] ∨
      ('"' ∉ escape c ∧ ∃ front last, escape c = front ++ [last] ∧ last ≠ '\\') := by
  unfold escape
  split
  · exact .inl rfl
  · exact .inr (.inl rfl)
  iterate 4 · exact .inr (.inr ⟨by decide, ['\\'], _, rfl, by decide⟩)
  · next hq hb _ _ _ _ =>
    refine .inr (.inr ?_)
    split
    · refine ⟨fun h => ?_, _, _, rfl, by decide⟩
      obtain h | ⟨n, hn, h⟩ := mem_byCode h
      · exact absurd h (by decide)
      · revert n
        decide
    · exact ⟨by simpa using Ne.symm hq, [], c, rfl, hb⟩

/-- Behind an escaped text no character is escaped. -/
theorem even_backslashes (text : List Char) : Even (backslashes (text.flatMap escape)) := by
  induction text using List.reverseRecOn with
  | nil => exact ⟨0, rfl⟩
  | append_singleton text c ih =>
    have hc : ∀ front last, escape c = front ++ [last] → last ≠ '\\' →
        Even (backslashes ((text ++ [c]).flatMap escape)) := fun front last h hl => by
      rw [List.flatMap_append, List.flatMap_singleton, h, ← List.append_assoc, backslashes_concat,
        if_neg hl]
      exact ⟨0, rfl⟩
    obtain h | h | ⟨-, front, last, h, hl⟩ := escape_cases c
    · exact hc ['\\'] '"' h (by decide)
    · rw [List.flatMap_append, List.flatMap_singleton, h, List.append_cons, backslashes_concat,
        backslashes_concat, if_pos rfl, if_pos rfl]
      exact ih.add_one.add_one
    · exact hc front last h hl

/-- A quote in an escaped text is escaped. -/
theorem odd_backslashes {text before behind : List Char}
    (h : text.flatMap escape = before ++ '"' :: behind) : Odd (backslashes before) := by
  induction text using List.reverseRecOn generalizing behind with
  | nil => simp at h
  | append_singleton text c ih =>
    rw [List.flatMap_append, List.flatMap_singleton, List.append_eq_append_iff] at h
    rcases h with ⟨part, rfl, h⟩ | ⟨part, ht, h⟩
    · have hm : '"' ∈ escape c := by simp [h]
      obtain he | he | ⟨hn, -⟩ := escape_cases c
      · rw [he] at h
        rcases part with _ | ⟨x, _ | ⟨y, part⟩⟩
        · cases h
        · obtain ⟨rfl, -⟩ := List.cons.inj h
          rw [backslashes_concat, if_pos rfl]
          exact (even_backslashes text).add_one
        · have := congrArg List.length h
          simp at this
      · rw [he] at hm
        exact absurd hm (by decide)
      · exact absurd hm hn
    · rcases part with _ | ⟨x, part⟩
      · have hc : escape c = '"' :: behind := h.symm
        obtain he | he | ⟨hn, -⟩ := escape_cases c
        · rw [he] at hc
          cases hc
        · rw [he] at hc
          cases hc
        · exact absurd (by simp [hc]) hn
      · obtain ⟨rfl, -⟩ := List.cons.inj h
        exact ih ht

/-- Of the quotes behind the first one only the last is not escaped. -/
theorem odd_backslashes_iff {text before behind : List Char}
    (h : quoted text = '"' :: (before ++ '"' :: behind)) :
    Odd (backslashes before) ↔ behind ≠ [] := by
  have ht : text.flatMap escape ++ ['"'] = before ++ '"' :: behind := (List.cons.inj h).2
  rcases behind.eq_nil_or_concat with rfl | ⟨behind, c, rfl⟩
  · rw [← List.append_cancel_right ht]
    simpa using even_backslashes text
  · rw [List.concat_eq_append, ← List.cons_append, ← List.append_assoc] at ht
    simp [odd_backslashes (List.append_inj_left' ht rfl)]

/-! ## One line -/

def IsControl (c : Char) : Prop :=
  c.toNat < 0x20 ∨ 0x7f ≤ c.toNat ∧ c.toNat ≤ 0x9f

/-- Whether a line ends at a character. -/
def BreaksLine (c : Char) : Prop :=
  c ∈ ['\n', '\x0b', '\x0c', '\r', '\u0085', '\u2028', '\u2029']

def OneLine (text : List Char) : Prop :=
  ∀ c ∈ text, ¬IsControl c ∧ ¬BreaksLine c

theorem isInvisible_of_isControl {c : Char} (h : IsControl c) : isInvisible c = true := by
  have high : ∀ n < 0xa0, 0x7f ≤ n → inRanges n lowRanges = true := by decide
  rcases h with h | ⟨h, h'⟩
  · exact isInvisible_of_lt h
  · rw [isInvisible, if_pos (by omega)]
    exact high _ (by omega) h

theorem isInvisible_of_breaksLine {c : Char} (h : BreaksLine c) : isInvisible c = true := by
  simp only [BreaksLine, List.mem_cons, List.not_mem_nil, or_false] at h
  rcases h with rfl | rfl | rfl | rfl | rfl | rfl | rfl <;> decide

theorem oneLine_of_visible {text : List Char} (h : ∀ c ∈ text, isInvisible c = false) :
    OneLine text := by
  intro c hc
  have hv := Bool.eq_false_iff.1 (h c hc)
  exact ⟨mt isInvisible_of_isControl hv, mt isInvisible_of_breaksLine hv⟩

theorem visible_digitChar : ∀ d < 16, isInvisible d.digitChar = false := by
  decide

/-- All that is written for a character shows on its own. -/
theorem visible_escape {c d : Char} (h : d ∈ escape c) : isInvisible d = false := by
  have short : ∀ e ∈ ['"', '\\', 't', 'r', 'n', '0'], d ∈ ['\\', e] → isInvisible d = false := by
    intro e he hd
    simp only [List.mem_cons, List.not_mem_nil, or_false] at he hd
    rcases hd with rfl | rfl
    · decide
    · rcases he with rfl | rfl | rfl | rfl | rfl | rfl <;> decide
  unfold escape at h
  split at h
  iterate 6 · exact short _ (by decide) h
  · next c _ _ _ _ _ _ =>
    split at h
    · obtain h | ⟨n, hn, rfl⟩ := mem_byCode h
      · simp only [List.mem_cons, List.not_mem_nil, or_false] at h
        rcases h with rfl | rfl | rfl | rfl <;> decide
      · exact visible_digitChar n hn
    · next hv =>
      rw [List.mem_singleton.1 h]
      exact Bool.eq_false_iff.2 hv

theorem visible_quoted {text : List Char} {c : Char} (h : c ∈ quoted text) :
    isInvisible c = false := by
  rw [quoted, List.mem_cons, List.mem_append, List.mem_singleton] at h
  rcases h with rfl | h | rfl
  · decide
  · obtain ⟨d, -, hd⟩ := List.mem_flatMap.1 h
    exact visible_escape hd
  · decide

end Text

namespace CompileError

/-- The kinds of errors. The reason of a refusal is no part of its kind. -/
inductive Kind where
  | unbalancedGroup
  | multipleWildcards
  | refused
  deriving DecidableEq, Repr

def kind (e : CompileError) : Kind :=
  match e.cause with
  | .fault .unbalancedGroup => .unbalancedGroup
  | .fault .multipleWildcards => .multipleWildcards
  | .refusal _ => .refused

variable {e f : CompileError}

theorem toList_message (e : CompileError) : e.message.toList =
    e.summary.toList ++ (": pattern = ".toList ++ Text.quoted e.pattern.toList) := by
  simp [message]

theorem summary_eq_of_kind_eq (h : e.kind = f.kind) : e.summary = f.summary := by
  unfold kind at h
  unfold summary
  split at h <;> split at h <;> simp_all

/-- The first letter of the messages of a kind. -/
def Kind.letter : Kind → Char
  | unbalancedGroup => 'u'
  | multipleWildcards => 'a'
  | refused => 'f'

theorem Kind.letter_injective : Function.Injective letter := by
  intro k l h
  cases k <;> cases l <;> first | rfl | exact absurd h (by decide)

theorem head?_message (e : CompileError) : e.message.toList.head? = some e.kind.letter := by
  have hs : e.summary.toList.head? = some e.kind.letter := by
    obtain ⟨pattern, (_ | _) | _⟩ := e <;> simp [summary, kind, Kind.letter]
  rw [toList_message, List.head?_append, hs, Option.some_or]

theorem kind_eq_of_message_eq (h : e.message = f.message) : e.kind = f.kind := by
  have hl := head?_message e
  rw [h, head?_message f] at hl
  exact (Kind.letter_injective (Option.some.inj hl)).symm

theorem message_eq_iff : e.message = f.message ↔ e.kind = f.kind ∧ e.pattern = f.pattern := by
  constructor
  · intro h
    have hk := kind_eq_of_message_eq h
    refine ⟨hk, ?_⟩
    have ht := congrArg String.toList h
    rw [toList_message, toList_message, summary_eq_of_kind_eq hk, List.append_cancel_left_eq,
      List.append_cancel_left_eq] at ht
    exact String.toList_inj.1 (Text.quoted_injective ht)
  · rintro ⟨hk, hp⟩
    rw [message, message, summary_eq_of_kind_eq hk, hp]

theorem oneLine_message (e : CompileError) : Text.OneLine e.message.toList := by
  have hs : (e.summary.toList ++ ": pattern = ".toList).all (!Text.isInvisible ·) = true := by
    unfold summary
    split <;> decide
  refine Text.oneLine_of_visible fun c hc => ?_
  rw [toList_message, ← List.append_assoc, List.mem_append] at hc
  rcases hc with hc | hc
  · simpa using List.all_eq_true.1 hs c hc
  · exact Text.visible_quoted hc

/-- Messages are the same just for errors of one kind about one pattern. A message is one line, and
its end is the quoted pattern, which is read back from it: of the quotes behind the first one only
the last is not escaped. The event of a fault holds the error that compiling returns. -/
theorem message_identifies :
    (∀ e f : CompileError, e.message = f.message ↔ e.kind = f.kind ∧ e.pattern = f.pattern) ∧
    (∀ e : CompileError, Text.OneLine e.message.toList ∧
      ∃ front, e.message.toList = front ++ Text.quoted e.pattern.toList) ∧
    (∀ text : List Char,
      (∀ rest, Text.unquote? (Text.quoted text ++ rest) = some (text, rest)) ∧
      ∀ before behind, Text.quoted text = '"' :: (before ++ '"' :: behind) →
        (Odd (Text.backslashes before) ↔ behind ≠ [])) ∧
    ∀ source e, (attempt source).2 = .malformed e →
      compile source = .error e ∧ e.pattern = source := by
  refine ⟨fun _ _ => message_eq_iff, fun e => ⟨oneLine_message e, ?_⟩,
    fun text => ⟨Text.unquote?_quoted text, fun _ _ => Text.odd_backslashes_iff⟩,
    fun source e h => ?_⟩
  · rw [toList_message, ← List.append_assoc]
    exact ⟨_, rfl⟩
  · rw [compile]
    unfold attempt at h ⊢
    split at h
    · cases h
      exact ⟨rfl, rfl⟩
    · dsimp only at h
      split at h <;> cases h

theorem message_identifies_escaped :
    (attempt "(\"\\\u0301").2 = .malformed ⟨"(\"\\\u0301", .fault .unbalancedGroup⟩ ∧
      compile "(\"\\\u0301" = .error ⟨"(\"\\\u0301", .fault .unbalancedGroup⟩ ∧
      Text.quoted "(\"\\\u0301".toList =
        '"' :: ("(\\".toList ++ '"' :: "\\\\\\u\x7b301\x7d\"".toList) ∧
      Odd (Text.backslashes "(\\".toList) := by
  obtain ⟨-, -, ht, he⟩ := message_identifies
  have ha : (attempt "(\"\\\u0301").2 =
      .malformed ⟨"(\"\\\u0301", .fault .unbalancedGroup⟩ := rfl
  have hq : Text.quoted "(\"\\\u0301".toList =
      '"' :: ("(\\".toList ++ '"' :: "\\\\\\u\x7b301\x7d\"".toList) := by
    decide +kernel
  exact ⟨ha, (he _ _ ha).1, hq, ((ht _).2 _ _ hq).2 (by decide)⟩

end CompileError

end PathRouting
