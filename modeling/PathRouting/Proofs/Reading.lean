import Mathlib.Algebra.Ring.Int.Defs
import Mathlib.Data.Nat.Cast.Basic
import PathRouting.Params.Reading
import PathRouting.Proofs.Views

/-!
# A number is read exactly

Reading digits from the left keeps the number that they stand for as long as it is in range
(`push_value`). So the first of three things decides the result: digits at the front that stand for
a number out of range, a character that is no digit, or the end of the text (`outcome_readDigits`).
More digits never bring a number back into the range (`InRange.of_append`), so a text that stands for
a number in range is read as that number, however many zeros stand before its digits.
-/

namespace PathRouting

namespace IntType

/-- The text of a sign, and whether it is a minus. -/
inductive Sign (t : IntType) : List Char → Bool → Prop
  | none : Sign t [] false
  | plus : Sign t ['+'] false
  | minus (h : t.signed = true) : Sign t ['-'] true

def AllDigits (text : List Char) : Prop :=
  ∀ c ∈ text, c.isDigit = true

/-- The number that digits stand for behind a sign. -/
def value (negative : Bool) (digits : List Char) : Int :=
  if negative then -(Nat.ofDigitChars 10 digits 0 : Int) else Nat.ofDigitChars 10 digits 0

/-- Whether a number has `bits` binary digits, or so many in two's complement. -/
def InRange (t : IntType) (n : Int) : Prop :=
  if t.signed then -2 ^ (t.bits - 1) ≤ n ∧ n < 2 ^ (t.bits - 1) else 0 ≤ n ∧ n < 2 ^ t.bits

theorem inRange_iff {t : IntType} {n : Int} : t.InRange n ↔ t.least ≤ n ∧ n ≤ t.greatest := by
  have hp : ∀ k, ((Nat.pow 2 k : Nat) : Int) = 2 ^ k := fun k => by
    rw [Nat.pow_eq, Nat.cast_pow, Nat.cast_ofNat]
  rw [InRange, least, greatest, hp, hp]
  split <;> omega

instance (t : IntType) (n : Int) : Decidable (t.InRange n) :=
  decidable_of_iff _ inRange_iff.symm

/-- An optional sign and one or more digits, which stand for the number. -/
def Denotes (t : IntType) (text : List Char) (n : Int) : Prop :=
  ∃ sign negative digits, t.Sign sign negative ∧ text = sign ++ digits ∧ digits ≠ [] ∧
    AllDigits digits ∧ n = value negative digits

/-- Behind an optional sign stand digits that stand for a number out of range. -/
def Overflows (t : IntType) (text : List Char) (negative : Bool) : Prop :=
  ∃ sign digits rest, t.Sign sign negative ∧ text = sign ++ (digits ++ rest) ∧ AllDigits digits ∧
    ¬t.InRange (value negative digits)

/-- The error of a number out of range. -/
def overflow (negative : Bool) : ReadError :=
  if negative then .tooSmall else .tooLarge

section

variable {t : IntType} {negative : Bool} {a b digits rest text sign : List Char} {n : Int}

/-! ## Numbers and their digits -/

theorem value_nil (negative : Bool) : value negative [] = 0 := by
  cases negative <;> rfl

theorem value_concat (negative : Bool) (digits : List Char) (c : Char) :
    value negative (digits ++ [c]) =
      if negative then 10 * value negative digits - (c.toNat - '0'.toNat : Nat)
      else 10 * value negative digits + (c.toNat - '0'.toNat : Nat) := by
  have h : Nat.ofDigitChars 10 (digits ++ [c]) 0 =
      10 * Nat.ofDigitChars 10 digits 0 + (c.toNat - '0'.toNat) := by
    rw [Nat.ofDigitChars_append, Nat.ofDigitChars_cons, Nat.ofDigitChars_nil]
  rw [value, h]
  cases negative
  · simp [value]
  · simp [value]
    omega

theorem least_le_zero (t : IntType) : t.least ≤ 0 := by
  rw [least]
  split
  · exact Int.neg_nonpos_of_nonneg (Int.natCast_nonneg _)
  · exact le_rfl

theorem zero_le_greatest (t : IntType) : 0 ≤ t.greatest := by
  have hp : ∀ n, 0 < Nat.pow 2 n := fun n => Nat.pow_pos (by decide)
  have h := hp (t.bits - 1)
  have h' := hp t.bits
  rw [greatest]
  split <;> omega

/-- A number can leave the range only on the side of its sign. -/
theorem inRange_value_iff : t.InRange (value negative digits) ↔
    if negative then t.least ≤ value negative digits else value negative digits ≤ t.greatest := by
  have hl := t.least_le_zero
  have hg := t.zero_le_greatest
  rw [inRange_iff]
  cases negative <;> simp [value] <;> omega

theorem ofDigitChars_le_append (a b : List Char) :
    Nat.ofDigitChars 10 a 0 ≤ Nat.ofDigitChars 10 (a ++ b) 0 := by
  rw [Nat.ofDigitChars_append, Nat.ofDigitChars_eq_ofDigitChars_zero (l := b)]
  have hp : 0 < 10 ^ b.length := Nat.pow_pos (by decide)
  exact Nat.le_add_right_of_le (Nat.le_mul_of_pos_left _ hp)

/-- More digits do not bring a number back into the range. -/
theorem InRange.of_append (h : t.InRange (value negative (a ++ b))) :
    t.InRange (value negative a) := by
  have hle := ofDigitChars_le_append a b
  rw [inRange_value_iff] at h ⊢
  cases negative <;> simp [value] at h ⊢ <;> omega

theorem inRange_value_nil (t : IntType) (negative : Bool) : t.InRange (value negative []) := by
  rw [value_nil, inRange_iff]
  exact ⟨t.least_le_zero, t.zero_le_greatest⟩

/-! ## Reading from the left -/

/-- One more digit makes the number that all digits stand for, if that is in range. -/
theorem push_value (t : IntType) (negative : Bool) (digits : List Char) (c : Char) :
    t.push negative (value negative digits) (c.toNat - '0'.toNat) =
      if t.InRange (value negative (digits ++ [c])) then .ok (value negative (digits ++ [c]))
      else .error (overflow negative) := by
  have h := @inRange_value_iff t negative (digits ++ [c])
  have hc := value_concat negative digits c
  cases negative with
  | false =>
    simp only [Bool.false_eq_true, if_false] at h hc
    rw [push, if_neg Bool.false_ne_true, ← hc]
    by_cases hr : t.InRange (value false (digits ++ [c]))
    · rw [if_pos hr, if_neg (not_lt.2 (h.1 hr))]
    · rw [if_neg hr, if_pos (not_le.1 (mt h.2 hr))]
      rfl
  | true =>
    simp only [if_true] at h hc
    rw [push, if_pos rfl, ← hc]
    by_cases hr : t.InRange (value true (digits ++ [c]))
    · rw [if_pos hr, if_neg (not_lt.2 (h.1 hr))]
    · rw [if_neg hr, if_pos (not_le.1 (mt h.2 hr))]
      rfl

/-- What decides the result of reading `text` behind the digits `before`. -/
inductive Outcome (t : IntType) (negative : Bool) (before text : List Char) :
    Except ReadError Int → Prop
  | number (hd : AllDigits text) (hr : t.InRange (value negative (before ++ text))) :
    Outcome t negative before text (.ok (value negative (before ++ text)))
  | overflow (digits rest : List Char) (h : text = digits ++ rest) (hd : AllDigits digits)
    (hr : ¬t.InRange (value negative (before ++ digits))) :
    Outcome t negative before text (.error (overflow negative))
  | invalid (hd : ¬AllDigits text) (hr : ∀ digits rest, text = digits ++ rest → AllDigits digits →
      t.InRange (value negative (before ++ digits))) :
    Outcome t negative before text (.error .invalidDigit)

/-- A digit that stays in range is read with those before it. -/
theorem Outcome.cons {before : List Char} {c : Char} {result : Except ReadError Int}
    (hc : c.isDigit = true) (hb : t.InRange (value negative before))
    (h : Outcome t negative (before ++ [c]) text result) :
    Outcome t negative before (c :: text) result := by
  have ha : ∀ s, before ++ [c] ++ s = before ++ c :: s := by simp
  cases h with
  | number hd hr =>
    rw [ha] at hr ⊢
    exact .number (List.forall_mem_cons.2 ⟨hc, hd⟩) hr
  | overflow digits rest h hd hr =>
    rw [ha] at hr
    exact .overflow (c :: digits) rest (by rw [h, List.cons_append])
      (List.forall_mem_cons.2 ⟨hc, hd⟩) hr
  | invalid hd hr =>
    refine .invalid (fun hd' => hd (List.forall_mem_cons.1 hd').2) fun digits rest h hd' => ?_
    rcases digits with _ | ⟨x, digits⟩
    · rwa [List.append_nil]
    · obtain ⟨rfl, ht⟩ := List.cons.inj h
      rw [← ha]
      exact hr digits rest ht (List.forall_mem_cons.1 hd').2

theorem outcome_readDigits (text : List Char) {before : List Char}
    (h : t.InRange (value negative before)) :
    Outcome t negative before text (t.readDigits negative (value negative before) text) := by
  induction text generalizing before with
  | nil =>
    have hb : t.InRange (value negative (before ++ [])) := by rwa [List.append_nil]
    have hn : Outcome t negative before [] (.ok (value negative (before ++ []))) := .number nofun hb
    rwa [List.append_nil] at hn
  | cons c text ih =>
    rw [readDigits]
    split
    · next hc =>
      rw [push_value]
      by_cases hr : t.InRange (value negative (before ++ [c]))
      · rw [if_pos hr]
        exact (ih hr).cons hc h
      · rw [if_neg hr]
        exact .overflow [c] text rfl (by simpa [AllDigits] using hc) hr
    · next hc =>
      refine .invalid (fun hd => hc (hd c List.mem_cons_self)) fun digits rest he hd => ?_
      rcases digits with _ | ⟨x, digits⟩
      · rwa [List.append_nil]
      · obtain ⟨rfl, -⟩ := List.cons.inj he
        exact absurd (hd c List.mem_cons_self) hc

theorem outcome_readDigits_zero (t : IntType) (negative : Bool) (text : List Char) :
    Outcome t negative [] text (t.readDigits negative 0 text) := by
  have h := outcome_readDigits text (inRange_value_nil t negative)
  rwa [value_nil] at h

/-! ## The sign -/

theorem read_cons_of_ne {c : Char} (hp : c ≠ '+') (hm : c ≠ '-') (rest : List Char) :
    t.read (c :: rest) = t.readDigits false 0 (c :: rest) := by
  unfold read
  split <;> simp_all

/-- Digits are read behind any sign of the type. -/
theorem read_sign_append (hs : t.Sign sign negative) {c : Char} (hc : c.isDigit = true)
    (rest : List Char) : t.read (sign ++ c :: rest) = t.readDigits negative 0 (c :: rest) := by
  cases hs with
  | none =>
    refine read_cons_of_ne ?_ ?_ rest <;> rintro rfl <;> exact absurd hc (by decide)
  | plus => rfl
  | minus h =>
    change (if t.signed then t.readDigits true 0 (c :: rest) else .error .invalidDigit) = _
    rw [if_pos h]

/-- Reading goes on behind the sign, unless the sign stands alone or the type has none. -/
theorem read_cases (t : IntType) (hne : text ≠ []) :
    (∃ sign negative rest, t.Sign sign negative ∧ text = sign ++ rest ∧ rest ≠ [] ∧
      t.read text = t.readDigits negative 0 rest) ∨ t.read text = .error .invalidDigit := by
  obtain ⟨c, rest, rfl⟩ := List.exists_cons_of_ne_nil hne
  by_cases hp : c = '+'
  · subst hp
    cases rest with
    | nil => exact .inr rfl
    | cons d rest => exact .inl ⟨_, _, d :: rest, .plus, rfl, by simp, rfl⟩
  by_cases hm : c = '-'
  · subst hm
    cases rest with
    | nil => exact .inr rfl
    | cons d rest =>
      have hr : t.read ('-' :: d :: rest) =
          if t.signed then t.readDigits true 0 (d :: rest) else .error .invalidDigit := rfl
      by_cases hs : t.signed = true
      · exact .inl ⟨_, _, d :: rest, .minus hs, rfl, by simp, by rw [hr, if_pos hs]⟩
      · exact .inr (by rw [hr, if_neg hs])
  · exact .inl ⟨_, _, c :: rest, .none, rfl, hne, read_cons_of_ne hp hm rest⟩

/-! ## What a text is read as -/

theorem read_eq_ok_iff : t.read text = .ok n ↔ t.Denotes text n ∧ t.InRange n := by
  constructor
  · intro h
    have hne : text ≠ [] := by
      rintro rfl
      cases h
    obtain ⟨sign, negative, rest, hs, rfl, hr, he⟩ | he := t.read_cases hne
    · have ho := outcome_readDigits_zero t negative rest
      rw [← he, h] at ho
      cases ho with
      | number hd hn => exact ⟨⟨sign, negative, rest, hs, rfl, hr, hd, rfl⟩, hn⟩
    · rw [h] at he
      cases he
  · rintro ⟨⟨sign, negative, digits, hs, rfl, hne, hd, rfl⟩, hn⟩
    obtain ⟨c, digits, rfl⟩ := List.exists_cons_of_ne_nil hne
    rw [read_sign_append hs (hd c List.mem_cons_self)]
    generalize hr : t.readDigits negative 0 (c :: digits) = result
    have ho := outcome_readDigits_zero t negative (c :: digits)
    rw [hr] at ho
    cases ho with
    | number => rfl
    | overflow front rest h _ ho =>
      rw [h] at hn
      exact absurd hn.of_append ho
    | invalid ho => exact absurd hd ho

theorem overflow_inj {other : Bool} (h : overflow negative = overflow other) : negative = other := by
  cases negative <;> cases other <;> first | rfl | cases h

theorem read_eq_overflow_iff :
    t.read text = .error (overflow negative) ↔ t.Overflows text negative := by
  constructor
  · intro h
    have hne : text ≠ [] := by
      rintro rfl
      cases negative <;> cases h
    obtain ⟨sign, other, rest, hs, rfl, hr, he⟩ | he := t.read_cases hne
    · have ho := outcome_readDigits_zero t other rest
      rw [← he, h] at ho
      generalize hr : Except.error (overflow negative) = result at ho
      cases ho with
      | number => cases hr
      | overflow digits rest h hd hn =>
        obtain rfl := overflow_inj (Except.error.inj hr)
        exact ⟨sign, digits, rest, hs, by rw [h], hd, hn⟩
      | invalid => cases negative <;> cases hr
    · rw [h] at he
      cases negative <;> cases he
  · rintro ⟨sign, digits, rest, hs, rfl, hd, hn⟩
    rcases digits with _ | ⟨c, digits⟩
    · exact absurd (inRange_value_nil t negative) hn
    rw [List.cons_append, read_sign_append hs (hd c List.mem_cons_self)]
    generalize hr : t.readDigits negative 0 (c :: (digits ++ rest)) = result
    have ho := outcome_readDigits_zero t negative (c :: (digits ++ rest))
    rw [hr] at ho
    cases ho with
    | number _ ho => exact absurd (InRange.of_append (a := c :: digits) ho) hn
    | overflow => rfl
    | invalid _ ho => exact absurd (ho (c :: digits) rest rfl hd) hn

/-- There is no error but those of the range and of a character that is no digit. -/
theorem exists_of_read_eq_error {e : ReadError} (hne : text ≠ []) (h : t.read text = .error e) :
    (∃ negative, e = overflow negative) ∨ e = .invalidDigit := by
  obtain ⟨sign, negative, rest, -, rfl, -, he⟩ | he := t.read_cases hne
  · have ho := outcome_readDigits_zero t negative rest
    rw [← he, h] at ho
    cases ho with
    | overflow => exact .inl ⟨negative, rfl⟩
    | invalid => exact .inr rfl
  · rw [h] at he
    cases he
    exact .inr rfl

theorem read_eq_invalidDigit_iff (hne : text ≠ []) : t.read text = .error .invalidDigit ↔
    (∀ n, ¬(t.Denotes text n ∧ t.InRange n)) ∧ ∀ negative, ¬t.Overflows text negative := by
  constructor
  · intro h
    refine ⟨fun n hn => ?_, fun negative hn => ?_⟩
    · rw [read_eq_ok_iff.2 hn] at h
      cases h
    · rw [read_eq_overflow_iff.2 hn] at h
      cases negative <;> cases h
  · rintro ⟨hd, ho⟩
    rcases hr : t.read text with e | n
    · obtain ⟨negative, rfl⟩ | rfl := exists_of_read_eq_error hne hr
      · exact absurd (read_eq_overflow_iff.1 hr) (ho negative)
      · rfl
    · exact absurd (read_eq_ok_iff.1 hr) (hd n)

/-! ## The decimal text of a number -/

/-- The decimal text of a number, with zeros before its digits. -/
def padded (zeros : Nat) (n : Int) : String :=
  (if n < 0 then "-" else "") ++ String.ofList (List.replicate zeros '0') ++ Nat.repr n.natAbs

theorem signed_of_inRange (h : t.InRange n) (hn : n < 0) : t.signed = true := by
  have hl := (inRange_iff.1 h).1
  rw [least] at hl
  split at hl
  · assumption
  · omega

theorem denotes_padded (h : t.InRange n) (zeros : Nat) : t.Denotes (padded zeros n).toList n := by
  have hd : AllDigits (List.replicate zeros '0' ++ Nat.toDigits 10 n.natAbs) := by
    intro c hc
    rcases List.mem_append.1 hc with hc | hc
    · rw [(List.mem_replicate.1 hc).2]
      rfl
    · exact Nat.isDigit_of_mem_toDigits (by decide) (by decide) hc
  have hv : Nat.ofDigitChars 10 (List.replicate zeros '0' ++ Nat.toDigits 10 n.natAbs) 0 =
      n.natAbs := by
    rw [Nat.ofDigitChars_append, Nat.ofDigitChars_replicate_zero, Nat.mul_zero,
      Nat.ofDigitChars_ten_toDigits]
  have hne : List.replicate zeros '0' ++ Nat.toDigits 10 n.natAbs ≠ [] :=
    List.append_ne_nil_of_right_ne_nil _ Nat.toDigits_ne_nil
  by_cases hn : n < 0
  · refine ⟨_, _, _, .minus (signed_of_inRange h hn), ?_, hne, hd, ?_⟩
    · simp [padded, hn]
    · rw [value, if_pos rfl, hv]
      omega
  · refine ⟨_, _, _, .none, ?_, hne, hd, ?_⟩
    · simp [padded, hn]
    · rw [value, if_neg (by decide), hv]
      omega

end

end IntType

/-! ## The values of a match -/

theorem Spells.ne_nil_of_bind_mem {tokens : List Token} {choices : List Choice} {path : List Char}
    (h : Spells tokens choices path) {name value : List Char} (hm : .bind name value ∈ choices) :
    value ≠ [] := by
  induction h with
  | nil => cases hm
  | literal c _ ih => exact ih hm
  | segment other hne hv _ ih =>
    cases hm with
    | head => exact hne
    | tail _ hm => exact ih hm
  | wildcard hne _ ih =>
    cases hm with
    | head => exact hne
    | tail _ hm => exact ih hm
  | keep _ ih | drop _ _ ih =>
    cases hm with
    | tail _ hm => exact ih hm
  | closing _ ih => exact ih hm

theorem Derivation.value_ne_empty {tokens : List Token} {url : List Char}
    (d : Derivation tokens url) {pair : String × String} (h : pair ∈ d.params.pairs) :
    pair.2 ≠ "" := by
  obtain ⟨choice, hc, hp⟩ := List.mem_filterMap.1 h
  cases choice with
  | bind name value =>
    cases hp
    exact fun he => d.spells.ne_nil_of_bind_mem hc (String.ofList_eq_empty_iff.1 he)
  | _ => cases hp

/-- A parameter is read as an integer from its rightmost value. It gives just the number that the
value stands for, if that is in the range of the type, and else the first problem from the left. -/
theorem Params.integer_read_exactly (p : Params) (name : String) (t : IntType) :
    (p.read? name (.int t) = none ↔ name ∉ p.names) ∧
    (∀ s, p.Rightmost name s →
      (∀ n, p.read? name (.int t) = some (.ok (.int n)) ↔
        t.Denotes s.toList n ∧ t.InRange n) ∧
      (p.read? name (.int t) = some (.error .tooSmall) ↔ t.Overflows s.toList true) ∧
      (p.read? name (.int t) = some (.error .tooLarge) ↔ t.Overflows s.toList false) ∧
      (s ≠ "" → (p.read? name (.int t) = some (.error .invalidDigit) ↔
        (∀ n, ¬(t.Denotes s.toList n ∧ t.InRange n)) ∧
          ∀ negative, ¬t.Overflows s.toList negative))) ∧
    (∀ n zeros, t.InRange n → p.Rightmost name (IntType.padded zeros n) →
      p.read? name (.int t) = some (.ok (.int n))) ∧
    ∀ source c, compile source = .ok c → ∀ url, c.captures url = some p →
      ∀ s, p.Rightmost name s → s ≠ "" := by
  have hread : ∀ s, p.Rightmost name s →
      p.read? name (.int t) = some ((t.read s.toList).map .int) := fun s hs => by
    rw [read?, get?_eq_some_iff.2 hs]
    rfl
  have hok : ∀ s, p.Rightmost name s → ∀ n, p.read? name (.int t) = some (.ok (.int n)) ↔
      t.Denotes s.toList n ∧ t.InRange n := fun s hs n => by
    rw [hread s hs, ← IntType.read_eq_ok_iff]
    cases t.read s.toList <;> simp [Except.map]
  have herror : ∀ s, p.Rightmost name s → ∀ e, p.read? name (.int t) = some (.error e) ↔
      t.read s.toList = .error e := fun s hs e => by
    rw [hread s hs]
    cases t.read s.toList <;> simp [Except.map]
  refine ⟨?_, fun s hs => ⟨hok s hs, ?_, ?_, fun hne => ?_⟩, fun n zeros hn hs => ?_, ?_⟩
  · rw [read?, Option.map_eq_none_iff, get?_eq_none_iff]
  · exact (herror s hs _).trans (@IntType.read_eq_overflow_iff t true s.toList)
  · exact (herror s hs _).trans (@IntType.read_eq_overflow_iff t false s.toList)
  · refine (herror s hs _).trans (IntType.read_eq_invalidDigit_iff fun he => hne ?_)
    exact String.toList_eq_nil_iff.1 he
  · exact (hok _ hs n).2 ⟨IntType.denotes_padded hn zeros, hn⟩
  · rintro source c hc url hp s ⟨before, behind, hs, -⟩
    have hm : (name, s) ∈ p.pairs := by simp [hs]
    obtain ⟨hn, -⟩ | ⟨d, -, hx⟩ := Compiled.extract_cases hc url.toList
    · rw [Compiled.captures, hn] at hp
      cases hp
    · rw [Compiled.captures, hx] at hp
      cases hp
      exact d.value_ne_empty hm

theorem Params.integer_read_exactly_bounds :
    ∃ c, compile "/:id" = .ok c ∧ c.captures "/-00128" = some ⟨[("id", "-00128")]⟩ ∧
      (⟨[("id", "-00128")]⟩ : Params).read? "id" (.int ⟨8, true⟩) = some (.ok (.int (-128))) ∧
      "-00128" ≠ "" ∧
      (⟨[("id", "7"), ("id", "-129x")]⟩ : Params).read? "id" (.int ⟨8, true⟩) =
        some (.error .tooSmall) ∧
      (⟨[("id", "127")]⟩ : Params).read? "id" (.int ⟨8, true⟩) = some (.ok (.int 127)) ∧
      (⟨[("id", "128")]⟩ : Params).read? "id" (.int ⟨8, true⟩) = some (.error .tooLarge) ∧
      (⟨[("id", "255")]⟩ : Params).read? "id" (.int ⟨8, false⟩) = some (.ok (.int 255)) ∧
      (⟨[("id", "256")]⟩ : Params).read? "id" (.int ⟨8, false⟩) = some (.error .tooLarge) := by
  obtain ⟨c, hc, hx⟩ : ∃ c, compile "/:id" = .ok c ∧
      c.captures "/-00128" = some ⟨[("id", "-00128")]⟩ := ⟨_, rfl, by decide +kernel⟩
  obtain ⟨-, -, hp, hne⟩ := Params.integer_read_exactly ⟨[("id", "-00128")]⟩ "id" ⟨8, true⟩
  have hs : (⟨[("id", "-00128")]⟩ : Params).Rightmost "id" (IntType.padded 2 (-128)) :=
    ⟨[], [], rfl, nofun⟩
  refine ⟨c, hc, hx, hp (-128) 2 (by decide) hs, hne _ c hc _ hx _ hs, ?_, ?_, ?_, ?_, ?_⟩
  · have hr : (⟨[("id", "7"), ("id", "-129x")]⟩ : Params).Rightmost "id" "-129x" :=
      ⟨[("id", "7")], [], rfl, nofun⟩
    refine ((Params.integer_read_exactly _ "id" ⟨8, true⟩).2.1 _ hr).2.1.2 ?_
    exact ⟨['-'], ['1', '2', '9'], ['x'], .minus rfl, rfl, by simp [IntType.AllDigits], by decide⟩
  · exact (Params.integer_read_exactly _ "id" ⟨8, true⟩).2.2.1 127 0 (by decide)
      ⟨[], [], rfl, nofun⟩
  · have hr : (⟨[("id", "128")]⟩ : Params).Rightmost "id" "128" := ⟨[], [], rfl, nofun⟩
    refine ((Params.integer_read_exactly _ "id" ⟨8, true⟩).2.1 _ hr).2.2.1.2 ?_
    exact ⟨[], ['1', '2', '8'], [], .none, rfl, by simp [IntType.AllDigits], by decide⟩
  · exact (Params.integer_read_exactly _ "id" ⟨8, false⟩).2.2.1 255 0 (by decide)
      ⟨[], [], rfl, nofun⟩
  · have hr : (⟨[("id", "256")]⟩ : Params).Rightmost "id" "256" := ⟨[], [], rfl, nofun⟩
    refine ((Params.integer_read_exactly _ "id" ⟨8, false⟩).2.1 _ hr).2.2.1.2 ?_
    exact ⟨[], ['2', '5', '6'], [], .none, rfl, by simp [IntType.AllDigits], by decide⟩

end PathRouting
