import PathRouting.Compiled

/-!
# Derivations

A derivation of a url from the tokens of a pattern keeps or drops each group, and gives each
parameter that is kept a value, so that the kept tokens spell the url up to a query. A group that
is dropped is dropped with all that stands in it, so nothing is chosen there.

Derivations are compared at the first choice in which they differ (`Precedes`): a kept group comes
before a dropped one, and a longer value before a shorter one.
-/

namespace PathRouting

/-- What is chosen at a token, in the order of the tokens. -/
inductive Choice where
  | keep
  | drop
  | bind (name value : List Char)
  deriving DecidableEq, Repr

/-- The name and the value that a choice binds. -/
def Choice.pair? : Choice → Option (String × String)
  | bind name value => some (String.ofList name, String.ofList value)
  | _ => none

/-- The kept tokens spell a path. A group that is dropped ends at its own parenthesis: what stands
before that are the tokens of a pattern. -/
inductive Spells : List Token → List Choice → List Char → Prop
  | nil : Spells [] [] []
  | literal (c : Char) {tokens choices path} (h : Spells tokens choices path) :
    Spells (.literal c :: tokens) choices (c :: path)
  | segment (name : List Char) {value tokens choices path} (hne : value ≠ [])
    (hv : ∀ c ∈ value, c ≠ '/' ∧ c ≠ '?') (h : Spells tokens choices path) :
    Spells (.segment name :: tokens) (.bind name value :: choices) (value ++ path)
  | wildcard {value tokens choices path} (hne : value ≠ []) (h : Spells tokens choices path) :
    Spells (.wildcard :: tokens) (.bind Pattern.wildcardName value :: choices) (value ++ path)
  | keep {tokens choices path} (h : Spells tokens choices path) :
    Spells (.opening :: tokens) (.keep :: choices) path
  | closing {tokens choices path} (h : Spells tokens choices path) :
    Spells (.closing :: tokens) choices path
  | drop (body : Pattern) {tokens choices path} (h : Spells tokens choices path) :
    Spells (.opening :: (body.tokens ++ .closing :: tokens)) (.drop :: choices) path

namespace Token

/-- The tokens behind the group in which these tokens stand, where `depth` groups are open in it. -/
def behindGroup : Nat → List Token → List Token
  | _, [] => []
  | 0, .closing :: tokens => tokens
  | depth + 1, .closing :: tokens => behindGroup depth tokens
  | depth, .opening :: tokens => behindGroup (depth + 1) tokens
  | depth, _ :: tokens => behindGroup depth tokens

/-- Every group that a pattern opens is closed in it. -/
theorem behindGroup_tokens (p : Pattern) (depth : Nat) (after : List Token) :
    behindGroup depth (p.tokens ++ after) = behindGroup depth after := by
  induction p generalizing depth after with
  | empty => rfl
  | literal before c ih | segment before name ih | wildcard before ih => simp [ih, behindGroup]
  | group before body ihb ih => simp [ihb, ih, behindGroup]

/-- The parenthesis that closes a group is the only one that can. -/
theorem tokens_closing_inj {p q : Pattern} {s t : List Token}
    (h : p.tokens ++ .closing :: s = q.tokens ++ .closing :: t) : p.tokens = q.tokens ∧ s = t := by
  have hs : s = t := by
    have := congrArg (behindGroup 0) h
    rwa [behindGroup_tokens, behindGroup_tokens] at this
  subst hs
  exact ⟨List.append_cancel_right h, rfl⟩

end Token

namespace Spells

variable {s t : List Token} {choices a b : List Choice} {path u v : List Char}

theorem append (h : Spells s a u) (h' : Spells t b v) : Spells (s ++ t) (a ++ b) (u ++ v) := by
  induction h with
  | nil => exact h'
  | literal c _ ih => exact .literal c ih
  | segment name hne hv _ ih => rw [List.append_assoc]; exact .segment name hne hv ih
  | wildcard hne _ ih => rw [List.append_assoc]; exact .wildcard hne ih
  | keep _ ih => exact .keep ih
  | closing _ ih => exact .closing ih
  | drop body _ ih =>
    rw [List.cons_append, List.append_assoc, List.cons_append]
    exact .drop body ih

/-- What is spelled by the tokens of a pattern and those behind it falls in two. -/
theorem split (p : Pattern) (h : Spells (p.tokens ++ t) choices path) :
    ∃ a b u v, choices = a ++ b ∧ path = u ++ v ∧ Spells p.tokens a u ∧ Spells t b v := by
  induction p generalizing t choices path with
  | empty => exact ⟨[], choices, [], path, rfl, rfl, .nil, h⟩
  | literal before c ih =>
    rw [Pattern.tokens_literal, List.append_assoc] at h
    obtain ⟨a, _, u, _, rfl, rfl, h₁, _ | ⟨_, h₂⟩⟩ := ih h
    exact ⟨a, _, u ++ [c], _, rfl, by simp, by simpa using h₁.append (.literal c .nil), h₂⟩
  | segment before name ih =>
    rw [Pattern.tokens_segment, List.append_assoc] at h
    obtain ⟨a, _, u, _, rfl, rfl, h₁, h₂⟩ := ih h
    cases h₂ with
    | @segment _ value _ _ _ hne hv h₂ =>
      refine ⟨a ++ [.bind name value], _, u ++ value, _, by simp, by simp, ?_, h₂⟩
      simpa using h₁.append (.segment name hne hv .nil)
  | wildcard before ih =>
    rw [Pattern.tokens_wildcard, List.append_assoc] at h
    obtain ⟨a, _, u, _, rfl, rfl, h₁, h₂⟩ := ih h
    cases h₂ with
    | @wildcard value _ _ _ hne h₂ =>
      refine ⟨a ++ [.bind Pattern.wildcardName value], _, u ++ value, _, by simp, by simp, ?_, h₂⟩
      simpa using h₁.append (.wildcard hne .nil)
  | group before body ihb ih =>
    rw [Pattern.tokens_group, List.append_assoc, List.cons_append, List.append_assoc] at h
    obtain ⟨a, c, u, w, rfl, rfl, h₁, h₂⟩ := ihb h
    generalize hg : body.tokens ++ ([Token.closing] ++ t) = tokens at h₂
    cases h₂ with
    | keep h₂ =>
      subst hg
      obtain ⟨b, _, v, _, rfl, rfl, h₂, h₃⟩ := ih h₂
      cases h₃ with
      | closing h₃ =>
        refine ⟨a ++ .keep :: b, _, u ++ v, _, by simp, by simp, ?_, h₃⟩
        simpa using h₁.append (.keep (h₂.append (.closing .nil)))
    | drop other h₂ =>
      obtain ⟨-, rfl⟩ := Token.tokens_closing_inj hg
      refine ⟨a ++ [.drop], _, u, _, by simp, rfl, ?_, h₂⟩
      simpa using h₁.append (.drop body .nil)

end Spells

/-- The kept tokens spell the url up to a rest that is empty or a query. -/
structure Derivation (tokens : List Token) (url : List Char) where
  choices : List Choice
  path : List Char
  rest : List Char
  spells : Spells tokens choices path
  url_eq : url = path ++ rest
  rest_eq : rest = [] ∨ ∃ query, rest = '?' :: query

namespace Derivation

variable {tokens : List Token} {url : List Char}

/-- The parameters that are kept, in pattern order. -/
def params (d : Derivation tokens url) : Params :=
  ⟨d.choices.filterMap Choice.pair?⟩

/-- The text behind the question mark, if the path ends at one. -/
def query (d : Derivation tokens url) : Option String :=
  d.rest.tail?.map String.ofList

theorem eq_of_rest_eq {d e : Derivation tokens url} (hc : d.choices = e.choices)
    (hr : d.rest = e.rest) : d = e := by
  have hp : d.path = e.path := by
    have hu : d.path ++ d.rest = e.path ++ d.rest := by rw [← d.url_eq, hr, ← e.url_eq]
    exact List.append_cancel_right hu
  cases d
  cases e
  cases hc
  cases hr
  cases hp
  rfl

end Derivation

/-- One list of choices comes before another: where they first differ it keeps a group that the
other drops, or binds a longer value. -/
inductive Precedes : List Choice → List Choice → Prop
  | keep (a b : List Choice) : Precedes (.keep :: a) (.drop :: b)
  | longer {name v w : List Char} (a b : List Choice) (h : w.length < v.length) :
    Precedes (.bind name v :: a) (.bind name w :: b)
  | cons (choice : Choice) {a b : List Choice} (h : Precedes a b) :
    Precedes (choice :: a) (choice :: b)

namespace Precedes

variable {a b : List Choice}

theorem append_left (choices : List Choice) (h : Precedes a b) :
    Precedes (choices ++ a) (choices ++ b) := by
  induction choices with
  | nil => exact h
  | cons choice choices ih => exact .cons choice ih

theorem append (h : Precedes a b) (c d : List Choice) : Precedes (a ++ c) (b ++ d) := by
  induction h with
  | keep => exact .keep _ _
  | longer _ _ h => exact .longer _ _ h
  | cons choice _ ih => exact .cons choice ih

theorem asymm (h : Precedes a b) : ¬Precedes b a := by
  induction h with
  | keep => rintro ⟨⟩
  | longer _ _ h =>
    rintro (_ | ⟨_, _, h'⟩ | h')
    · omega
    · omega
  | cons choice _ ih =>
    rintro (_ | ⟨_, _, h'⟩ | ⟨_, h'⟩)
    · omega
    · exact ih h'

end Precedes

/-- A derivation that comes before every other one. -/
def Derivation.IsFirst {tokens : List Token} {url : List Char} (d : Derivation tokens url) : Prop :=
  ∀ e : Derivation tokens url, e ≠ d → Precedes d.choices e.choices

theorem Derivation.IsFirst.eq {tokens : List Token} {url : List Char} {d e : Derivation tokens url}
    (hd : d.IsFirst) (he : e.IsFirst) : e = d := by
  refine Classical.byContradiction fun h => ?_
  exact (hd e h).asymm (he d (Ne.symm h))

end PathRouting
