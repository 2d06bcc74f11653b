import PathRouting.Compiled

/-!
# A pattern has the tokens it was read from

Reading loses no token: what a draft holds are the tokens that were pushed (`tokens_pushAll`), so
the tokens of a pattern are those of its text (`tokens_of_ofText`).
-/

namespace PathRouting

namespace Pattern

/-- The tokens before the last open group. -/
def openedTokens : List Pattern → List Token
  | [] => []
  | before :: outer => openedTokens outer ++ (before.tokens ++ [.opening])

/-- The tokens that were read. -/
def Draft.tokens (d : Draft) : List Token :=
  openedTokens d.outer ++ d.current.tokens

theorem Draft.tokens_push {d e : Draft} {token : Token} (h : d.push token = .ok e) :
    e.tokens = d.tokens ++ [token] := by
  obtain ⟨outer, current, starred⟩ := d
  cases token with
  | literal c => cases h; simp [tokens]
  | segment name => cases h; simp [tokens]
  | wildcard =>
    simp only [push] at h
    split at h
    · cases h
    · cases h; simp [tokens]
  | opening => cases h; simp [tokens, openedTokens]
  | closing =>
    rcases outer with _ | ⟨before, outer⟩
    · cases h
    · cases h; simp [tokens, openedTokens]

theorem Draft.tokens_pushAll :
    ∀ {tokens : List Token} {d e : Draft}, d.pushAll tokens = .ok e →
      e.tokens = d.tokens ++ tokens
  | [], d, e, h => by
    cases h
    simp
  | token :: tokens, d, e, h => by
    rw [pushAll] at h
    split at h
    · next d' hd =>
      rw [tokens_pushAll h, tokens_push hd, List.append_assoc]
      rfl
    · cases h

theorem tokens_of_parse {tokens : List Token} {p : Pattern} (h : parse tokens = .ok p) :
    p.tokens = tokens := by
  rw [parse] at h
  split at h
  · next d hd =>
    have ht := Draft.tokens_pushAll hd
    obtain ⟨_ | ⟨before, outer⟩, current, starred⟩ := d
    · cases h
      exact ht
    · cases h
  · cases h

theorem tokens_of_ofText {text : List Char} {p : Pattern} (h : ofText text = .ok p) :
    p.tokens = Token.scan text :=
  tokens_of_parse h

end Pattern

/-- What compiling keeps of a text: the text, and the pattern that it reads as. -/
theorem of_compile_eq_ok {source : String} {c : Compiled} (h : compile source = .ok c) :
    c.source = source ∧ Pattern.ofText source.toList = .ok c.pattern := by
  rw [compile, attempt] at h
  split at h
  · cases h
  · next p hp =>
    dsimp only at h
    split at h
    · cases h
    · cases h
      exact ⟨rfl, hp⟩

/-- A text that reads as a pattern compiles if the pattern is not refused. -/
theorem compile_eq_ok_iff {source : String} {p : Pattern} {c : Compiled}
    (h : Pattern.ofText source.toList = .ok p) :
    compile source = .ok c ↔ p.refusal? = none ∧ c = .ofPattern source p := by
  rw [compile, attempt, h]
  dsimp only
  split
  · next hr => simp [hr]
  · next hr => simp [hr, eq_comm]

end PathRouting
