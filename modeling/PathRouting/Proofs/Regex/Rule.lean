import PathRouting.Proofs.Parse
import PathRouting.Proofs.Regex.Syntax

/-!
# The rule of a pattern reads as the pattern

Reading the rule gives the tree that has one node for each token of the pattern, between the anchors
and before the query (`read?_rule`). No literal character of a pattern is read as anything else, so
the capturing groups are those of the parameters, in their order, and the one of the query.
-/

namespace PathRouting

namespace CharClass

/-- What the value of a segment is made of: `[^/?]`. -/
def segment : CharClass :=
  ⟨true, [.char '/', .char '?']⟩

/-- Any character: `[\s\S]`. -/
def anything : CharClass :=
  ⟨false, [.space, .notSpace]⟩

end CharClass

namespace Pattern

/-- The expression that a pattern stands for, behind another one. -/
def regexOnto : Pattern → Regex → Regex
  | empty, r => r
  | literal before c, r => (before.regexOnto r).char c
  | segment before _, r => (before.regexOnto r).capture (.many .empty .segment 1)
  | wildcard before, r => (before.regexOnto r).capture (.many .empty .anything 1)
  | group before body, r => (before.regexOnto r).optional (body.regexOnto .empty)

/-- The query, which is the last group that captures. -/
def queryRegex : Regex :=
  .capture (.char .empty '?') (.many .empty .anything 0)

/-- The expression that a pattern stands for, with its anchors and the query. -/
def regex (p : Pattern) : Regex :=
  ((p.regexOnto (.start .empty)).optional queryRegex).finish

theorem isAlphanum_of_isReserved : ∀ c, isReserved c = true → c.isAlphanum = false := by
  simp only [isReserved, decide_eq_true_eq, List.forall_mem_cons, List.not_mem_nil, false_implies,
    implies_true]
  decide

end Pattern

/-- The name of a parameter, and what its value is made of. -/
@[simp] def Token.parameter? : Token → Option (List Char × CharClass)
  | segment name => some (name, .segment)
  | wildcard => some (Pattern.wildcardName, .anything)
  | _ => none

/-- The parameters of tokens, in their order. -/
def Token.parameters (tokens : List Token) : List (List Char × CharClass) :=
  tokens.filterMap parameter?

namespace Token

@[simp] theorem parameters_nil : parameters [] = [] := rfl

@[simp] theorem parameters_append (s t : List Token) :
    parameters (s ++ t) = parameters s ++ parameters t :=
  List.filterMap_append

@[simp] theorem parameters_cons (token : Token) (tokens : List Token) :
    parameters (token :: tokens) = (parameter? token).toList ++ parameters tokens := by
  rw [parameters, List.filterMap_cons]
  cases parameter? token <;> rfl

theorem names_eq_parameters (tokens : List Token) :
    names tokens = (parameters tokens).map Prod.fst := by
  rw [names, parameters, List.map_filterMap]
  exact congrArg (List.filterMap · tokens) (funext fun token => by cases token <;> rfl)

end Token

namespace Pattern

/-- The names of a pattern are those of its parameters. -/
theorem names_eq_parameters (p : Pattern) :
    p.names = (Token.parameters p.tokens).map Prod.fst :=
  Token.names_eq_parameters p.tokens

/-- Each parameter has one capturing group. -/
theorem groups_regexOnto (p : Pattern) (r : Regex) :
    (p.regexOnto r).groups = r.groups ++
      (Token.parameters p.tokens).map fun parameter => .many .empty parameter.2 1 := by
  induction p generalizing r with
  | empty => simp [regexOnto]
  | literal before c ih => simp [regexOnto, Regex.groups, ih]
  | segment before name ih => simp [regexOnto, Regex.groups, ih]
  | wildcard before ih => simp [regexOnto, Regex.groups, ih]
  | group before body ihb ih => simp [regexOnto, Regex.groups, ihb, ih]

theorem groups_regex (p : Pattern) :
    p.regex.groups = (Token.parameters p.tokens).map
      (fun parameter => .many .empty parameter.2 1) ++ [.many .empty .anything 0] := by
  simp [regex, Regex.groups, groups_regexOnto, queryRegex]

end Pattern

/-! ## The characters of the rule -/

/-- The symbols of the rule of a token. -/
def Token.symbols : Token → List Symbol
  | literal c => [.char c]
  | segment _ => [.capturing, .kind .segment, .plus, .closing]
  | wildcard => [.capturing, .kind .anything, .plus, .closing]
  | opening => [.grouping]
  | closing => [.closing, .question]

namespace Symbol

theorem ofChar?_of_not_isReserved {c : Char} (h : Pattern.isReserved c = false) :
    ofChar? c = some (.char c) := by
  unfold ofChar?
  split <;> first | rfl | exact absurd h (by decide)

/-- Outside a class a character that begins nothing longer is read on its own. -/
theorem lex?_of_ofChar? {c : Char} {symbol : Symbol} (h : ofChar? c = some symbol) (hc : c ≠ '(')
    (text : List Char) : lex? none (c :: text) = (lex? none text).map (symbol :: ·) := by
  rw [lex?]
  · rw [h]
    rfl
  · rintro d text rfl
    cases h
  · exact fun _ hc' => absurd hc' hc
  · exact fun _ hc' => absurd hc' hc
  · rintro d rfl
    cases h
  · rintro rfl
    cases h

/-- An escaped character is read as itself, whatever it could mean. -/
theorem lex?_escapeReserved (c : Char) (text : List Char) :
    lex? none (Pattern.escapeReserved c ++ text) = (lex? none text).map (char c :: ·) := by
  rw [Pattern.escapeReserved]
  split
  · next h =>
    have hr : lex? none ('\\' :: c :: text) =
        if c.isAlphanum then none else (lex? none text).map (char c :: ·) := rfl
    rw [List.cons_append, List.cons_append, List.nil_append, hr,
      Pattern.isAlphanum_of_isReserved c h]
    rfl
  · next h =>
    have h' : Pattern.isReserved c = false := by simpa using h
    have hc : c ≠ '(' := by
      rintro rfl
      exact absurd h' (by decide)
    exact lex?_of_ofChar? (ofChar?_of_not_isReserved h') hc text

variable {text : List Char} {symbols : List Symbol}

theorem lex?_segmentRule (h : lex? none text = some symbols) :
    lex? none (Pattern.segmentRule ++ text) =
      some (capturing :: kind .segment :: plus :: closing :: symbols) := by
  have hr : lex? none (Pattern.segmentRule ++ text) =
      ((((lex? none text).map (closing :: ·)).map (plus :: ·)).map (kind .segment :: ·)).map
        (capturing :: ·) := rfl
  rw [hr, h]
  rfl

theorem lex?_wildcardRule (h : lex? none text = some symbols) :
    lex? none (Pattern.wildcardRule ++ text) =
      some (capturing :: kind .anything :: plus :: closing :: symbols) := by
  have hr : lex? none (Pattern.wildcardRule ++ text) =
      ((((lex? none text).map (closing :: ·)).map (plus :: ·)).map (kind .anything :: ·)).map
        (capturing :: ·) := rfl
  rw [hr, h]
  rfl

theorem lex?_grouping (h : lex? none text = some symbols) :
    lex? none ("(?:".toList ++ text) = some (grouping :: symbols) := by
  have hr : lex? none ("(?:".toList ++ text) = (lex? none text).map (grouping :: ·) := rfl
  rw [hr, h]
  rfl

theorem lex?_closing (h : lex? none text = some symbols) :
    lex? none (")?".toList ++ text) = some (closing :: question :: symbols) := by
  have hr : lex? none (")?".toList ++ text) =
      ((lex? none text).map (question :: ·)).map (closing :: ·) := rfl
  rw [hr, h]
  rfl

theorem lex?_queryRule :
    lex? none (Pattern.queryRule ++ ['$']) =
      some [grouping, char '?', capturing, kind .anything, star, closing, closing, question,
        dollar] := by
  decide

/-- The rules of tokens are read as their symbols. -/
theorem lex?_tokens (tokens : List Token) {text : List Char} {symbols : List Symbol}
    (h : lex? none text = some symbols) :
    lex? none (tokens.flatMap Token.rule ++ text) =
      some (tokens.flatMap Token.symbols ++ symbols) := by
  induction tokens with
  | nil => exact h
  | cons token tokens ih =>
    rw [List.flatMap_cons, List.append_assoc, List.flatMap_cons, List.append_assoc]
    cases token with
    | literal c =>
      rw [Token.rule, lex?_escapeReserved, ih]
      rfl
    | segment name => exact lex?_segmentRule ih
    | wildcard => exact lex?_wildcardRule ih
    | opening => exact lex?_grouping ih
    | closing => exact lex?_closing ih

end Symbol

/-! ## The tree of the rule -/

namespace Regex

theorem build?_value (outer : List (Bool × Regex)) (r : Regex) (kind : CharClass)
    (after : List Symbol) :
    build? outer r (.capturing :: .kind kind :: .plus :: .closing :: after) =
      build? outer (r.capture (.many .empty kind 1)) after := by
  rw [build?, build?, build?]

/-- The symbols of the tokens build the tree of the pattern. -/
theorem build?_symbols (p : Pattern) (outer : List (Bool × Regex)) (r : Regex)
    (after : List Symbol) :
    build? outer r (p.tokens.flatMap Token.symbols ++ after) =
      build? outer (p.regexOnto r) after := by
  induction p generalizing outer r after with
  | empty => rfl
  | literal before c ih =>
    rw [Pattern.tokens_literal, List.flatMap_append, List.append_assoc, ih]
    change build? outer _ (.char c :: after) = _
    rw [build?]
    rfl
  | segment before name ih =>
    rw [Pattern.tokens_segment, List.flatMap_append, List.append_assoc, ih]
    exact build?_value outer _ .segment after
  | wildcard before ih =>
    rw [Pattern.tokens_wildcard, List.flatMap_append, List.append_assoc, ih]
    exact build?_value outer _ .anything after
  | group before body ihb ih =>
    rw [Pattern.tokens_group, List.flatMap_append, List.append_assoc, ihb, List.flatMap_cons,
      List.flatMap_append, List.append_assoc, List.append_assoc, Token.symbols,
      List.singleton_append, build?, ih]
    rfl

/-- The rule of a pattern reads as the expression of the pattern. -/
theorem read?_rule (p : Pattern) : read? p.rule = some p.regex := by
  have hs := Symbol.lex?_tokens p.tokens Symbol.lex?_queryRule
  have hc : Symbol.lex? none p.rule = _ :=
    Symbol.lex?_of_ofChar? (c := '^') rfl (by decide) (p.tokens.flatMap Token.rule ++ _)
  rw [read?, hc, hs, Option.map_some, Option.bind_some, build?, build?_symbols]
  rfl

end Regex

end PathRouting
