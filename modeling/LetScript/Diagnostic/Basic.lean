import LetScript.Source.Position
import LetScript.Text.Quoted

/-!
# Diagnostics

A diagnostic is the cause of a fault together with the position it concerns. Diagnostics are
data: an invalid token, a syntax fault and an unresolved identifier each carry one. The wording of
a cause is given by `Cause.name`, `Cause.message` and `Cause.tip`.
-/

namespace LetScript

/-- Why a part of a program is faulty. -/
inductive Cause where
  /-- A character that starts no token. -/
  | unrecognisedSymbol
  /-- A dot that is not part of `...`. -/
  | unrecognisedDot
  /-- A quoted identifier without its closing bracket. -/
  | unterminatedQuotedIdentifier
  /-- A quoted identifier without a name. -/
  | emptyQuotedIdentifier
  /-- A token of another kind than the one required. -/
  | unexpectedToken (expected received : String)
  /-- A token that starts no expression. -/
  | cannotParseExpression (token : String)
  /-- A number token whose text is not a numeral. -/
  | numberParseError (token : String)
  /-- An expression nested deeper, or a tree grown taller, than the limit. -/
  | nestingTooDeep (limit : Nat)
  /-- A name that is declared nowhere in scope. -/
  | unresolvedIdentifier (identifier : String)
  /-- A placeholder for an expression that is still to be written. -/
  | notImplemented
  /-- An operator without a counterpart in the generated code. -/
  | uncompilableOperator (operator : String)
  deriving DecidableEq

namespace Cause

/-- The name of a kind of cause. -/
def name : Cause → String
  | unrecognisedSymbol => "UnrecognisedSymbol"
  | unrecognisedDot => "UnrecognisedDot"
  | unterminatedQuotedIdentifier => "UnterminatedQuotedIdentifier"
  | emptyQuotedIdentifier => "EmptyQuotedIdentifier"
  | unexpectedToken _ _ => "UnexpectedToken"
  | cannotParseExpression _ => "CannotParseExpression"
  | numberParseError _ => "NumberParseError"
  | nestingTooDeep _ => "NestingTooDeep"
  | unresolvedIdentifier _ => "UnresolvedIdentifier"
  | notImplemented => "NotImplemented"
  | uncompilableOperator _ => "UncompilableOperator"

/-- What went wrong, in one sentence. -/
def message : Cause → String
  | unrecognisedSymbol =>
    "Unrecognized symbol. (Did you mean to quote this as an identifier, with '[]'?)"
  | unrecognisedDot => "Unrecognized symbol. (Did you mean '...'?)"
  | unterminatedQuotedIdentifier => "Expected to find a ']' to close the quoted identifier."
  | emptyQuotedIdentifier => "Empty quoted identifiers ('[]') are not allowed."
  | unexpectedToken expected received =>
    "Parse error: expected " ++ expected ++ " but got " ++ received
  | cannotParseExpression token => "Cannot parse '" ++ token ++ "' as an expression"
  | numberParseError token => "error parsing number: " ++ Text.quoted token
  | nestingTooDeep limit => "Expression is nested more than " ++ limit.repr ++ " levels deep"
  | unresolvedIdentifier identifier => "Cannot find the definition of [" ++ identifier ++ "]."
  | notImplemented => "Not Implemented"
  | uncompilableOperator operator => "Uncompilable operator: " ++ operator

/-- What to do about it, if there is anything to suggest. -/
def tip : Cause → Option String
  | unrecognisedSymbol => some "quote unusual identifiers with '[' and ']'"
  | unrecognisedDot => some "did you mean '...'?"
  | unterminatedQuotedIdentifier => some "add a closing ']'"
  | emptyQuotedIdentifier => none
  | unexpectedToken expected _ => some ("expected " ++ expected)
  | cannotParseExpression _ => none
  | numberParseError token => some ("Invalid number: `" ++ token ++ "`")
  | nestingTooDeep _ => some "name inner parts with `let`"
  | unresolvedIdentifier identifier =>
    some ("declare `" ++ identifier ++ "` with `let` or as a function parameter")
  | notImplemented => none
  | uncompilableOperator _ => none

end Cause

/-- A cause and the position it concerns. -/
structure Diagnostic where
  cause : Cause
  position : Position
  deriving DecidableEq

/-- What went wrong, in one sentence. -/
def Diagnostic.message (diagnostic : Diagnostic) : String := diagnostic.cause.message

end LetScript
