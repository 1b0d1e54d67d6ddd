import LetScript.Number.Binary64
import LetScript.Script.Basic

/-!
# Expressions of JavaScript

The part of JavaScript that generated code uses: numbers, strings, variables, properties,
arithmetic, calls, functions whose bodies are sequences of statements, and arrays. Parentheses leave
no trace. Variables and functions carry a tag, which says what they were made for. An expression
that was read from a text has no use for tags.
-/

namespace LetScript.JavaScript

open Script (Operator)

mutual

/-- An expression whose variables and functions have tags. -/
inductive Expr (τ : Type) where
  | number (value : Binary64)
  | string (text : String)
  | variable (tag : τ) (name : String)
  /-- A property of an object, by its name. -/
  | member (object : Expr τ) (name : String)
  | unary (operator : Operator) (operand : Expr τ)
  | binary (operator : Operator) (left right : Expr τ)
  | call (callee : Expr τ) (arguments : List (Expr τ))
  /-- A new object, by its constructor. -/
  | construct (constructor : Expr τ) (arguments : List (Expr τ))
  | function (tag : τ) (params : List String) (body : List (Statement τ))
  | array (elements : List (Expr τ))

/-- A statement in the body of a function. -/
inductive Statement (τ : Type) where
  /-- `var name = value;`. -/
  | declares (name : String) (value : Expr τ)
  | throws (value : Expr τ)
  | returns (value : Expr τ)

end

variable {τ : Type}

mutual

/-- An expression without its tags. -/
def Expr.erase : Expr τ → Expr Unit
  | .number value => .number value
  | .string text => .string text
  | .variable _ name => .variable () name
  | .member object name => .member object.erase name
  | .unary operator operand => .unary operator operand.erase
  | .binary operator left right => .binary operator left.erase right.erase
  | .call callee arguments => .call callee.erase (Expr.eraseList arguments)
  | .construct constructor arguments => .construct constructor.erase (Expr.eraseList arguments)
  | .function _ params body => .function () params (Statement.eraseList body)
  | .array elements => .array (Expr.eraseList elements)

/-- Expressions without their tags. -/
def Expr.eraseList : List (Expr τ) → List (Expr Unit)
  | [] => []
  | expr :: exprs => expr.erase :: Expr.eraseList exprs

/-- A statement without its tags. -/
def Statement.erase : Statement τ → Statement Unit
  | .declares name value => .declares name value.erase
  | .throws value => .throws value.erase
  | .returns value => .returns value.erase

/-- Statements without their tags. -/
def Statement.eraseList : List (Statement τ) → List (Statement Unit)
  | [] => []
  | statement :: statements => statement.erase :: Statement.eraseList statements

end

end LetScript.JavaScript
