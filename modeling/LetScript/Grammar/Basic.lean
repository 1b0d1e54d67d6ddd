import LetScript.Token.Basic

/-!
# The grammar of expressions

A grammar says for each kind of token how an expression that starts with it is parsed, and how
one is continued by it. A continuation has a power: an operand is continued by the tokens of a
greater power than its own. In `Grammar.standard` every token that starts an expression, and is no
operator, also continues one: it starts the argument of a function.
-/

namespace LetScript

/-- The powers of continuations, in increasing order. Three of them stand for no token: they are
the powers of the bodies of lets and functions and of the fields of records. -/
inductive Power where
  | lowest
  | doubleCaret
  | letIn
  | record
  | function
  | additive
  | multiplicative
  | apply
  deriving DecidableEq

namespace Power

/-- The rank of a power. -/
def level : Power → Nat
  | lowest => 0
  | doubleCaret => 1
  | letIn => 2
  | record => 3
  | function => 4
  | additive => 5
  | multiplicative => 6
  | apply => 7

instance : LT Power := ⟨fun a b => a.level < b.level⟩

instance : DecidableLT Power := fun a b => inferInstanceAs (Decidable (a.level < b.level))

/-- The name of a power. -/
def name : Power → String
  | lowest => "Default"
  | doubleCaret => "Meta"
  | letIn => "Let"
  | record => "Record"
  | function => "Fn"
  | additive => "Additive"
  | multiplicative => "Multiplicative"
  | apply => "Apply"

/-- Every power, in increasing order. -/
def all : List Power :=
  [lowest, doubleCaret, letIn, record, function, additive, multiplicative, apply]

end Power

/-- The ways to parse an expression that starts with a token. -/
inductive PrefixRule where
  /-- The token is a name. -/
  | identifier
  /-- The token is a number. -/
  | literal
  /-- The token is invalid, and so is the expression. -/
  | invalid
  /-- The token is a placeholder. -/
  | placeholder
  /-- The token starts a function. -/
  | function
  /-- The token starts a let. -/
  | letIn
  /-- The token opens a record. -/
  | record
  /-- The token opens an expression in parentheses. -/
  | group
  /-- The token is a sign. -/
  | sign
  deriving DecidableEq

/-- The ways to continue an expression by a token. -/
inductive InfixRule where
  /-- The token is an operator. -/
  | binary
  /-- The token starts the argument of a function. -/
  | apply
  deriving DecidableEq

/-- The rules for the kinds of tokens. -/
structure Grammar where
  prefixRule : Kind → Option PrefixRule
  infixRule : Kind → Option (Power × InfixRule)

namespace Grammar

/-- The grammar without rules. -/
def empty : Grammar := ⟨fun _ => none, fun _ => none⟩

/-- The grammar in which expressions that start with a kind of token are parsed by a rule. -/
def withPrefixRule (grammar : Grammar) (kind : Kind) (rule : PrefixRule) : Grammar :=
  { grammar with
    prefixRule := fun other => if other = kind then some rule else grammar.prefixRule other }

/-- The grammar in which a kind of token continues expressions by a rule, with a power. -/
def withInfixRule (grammar : Grammar) (kind : Kind) (power : Power) (rule : InfixRule) :
    Grammar :=
  { grammar with
    infixRule := fun other =>
      if other = kind then some (power, rule) else grammar.infixRule other }

/-- How an expression that starts with a token of some kind is parsed. -/
def standardPrefixRule : Kind → Option PrefixRule
  | .identifier => some .identifier
  | .number => some .literal
  | .fnWord => some .function
  | .letWord => some .letIn
  | .openCurly => some .record
  | .ellipsis => some .placeholder
  | .openParen => some .group
  | .plus => some .sign
  | .dash => some .sign
  | .invalid => some .invalid
  | _ => none

/-- How an expression is continued by a token of some kind. -/
def standardInfixRule : Kind → Option (Power × InfixRule)
  | .plus => some (.additive, .binary)
  | .dash => some (.additive, .binary)
  | .star => some (.multiplicative, .binary)
  | .slash => some (.multiplicative, .binary)
  | .doubleCaret => some (.doubleCaret, .binary)
  | kind => (standardPrefixRule kind).map fun _ => (.apply, .apply)

/-- The grammar of the language. -/
def standard : Grammar := ⟨standardPrefixRule, standardInfixRule⟩

/-- The power with which a kind of token continues an expression. The lowest power continues
none. -/
def power (grammar : Grammar) (kind : Kind) : Power :=
  match grammar.infixRule kind with
  | some (power, _) => power
  | none => .lowest

end Grammar

end LetScript
