import LetScript.Script.Name
import LetScript.Script.StringLiteral

/-!
# Scripts

A script is the JavaScript expression generated for a tree, described by what its parts do rather
than by their text. A part that cannot be compiled is a failure, which throws an error with a
message when it is evaluated.
-/

namespace LetScript.Script

/-- The arithmetic operators. -/
inductive Operator where
  | plus
  | minus
  | times
  | divide
  deriving DecidableEq

/-- The sign of an operator. -/
def Operator.symbol : Operator → String
  | plus => "+"
  | minus => "-"
  | times => "*"
  | divide => "/"

mutual

/-- A JavaScript expression. -/
inductive Expr where
  /-- A number, by its text. -/
  | number (text : String)
  /-- A variable. -/
  | variable (name : String)
  /-- A property of the object in a variable. -/
  | property (object name : String)
  /-- Throws an error with a message. -/
  | failure (message : String)
  /-- An expression in parentheses. -/
  | paren (inner : Expr)
  /-- A sign before its operand. -/
  | unary (operator : Operator) (operand : Expr)
  /-- An operator between its operands. -/
  | binary (operator : Operator) (left right : Expr)
  /-- A call with one argument. -/
  | call (callee argument : Expr)
  /-- A function that first fails with each of some messages and then gives its body. A curried
  one may be called with fewer arguments than it has parameters. -/
  | function (curried : Bool) (params failures : List String) (body : Expr)
  /-- A record of definitions. -/
  | record (entries : List Entry)
  /-- A record of definitions after some failures. -/
  | faultyRecord (failures : List String) (entries : List Entry)
  /-- A body in which a variable holds a record of definitions. The failures come after it. -/
  | scoped (variableName : String) (entries : List Entry) (failures : List String) (body : Expr)

/-- A definition of a record, evaluated when it is first used. -/
inductive Entry where
  | mk (name : String) (value : Expr)

end

end LetScript.Script
