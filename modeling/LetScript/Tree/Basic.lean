import LetScript.Number.Binary64
import LetScript.Token.Basic

/-!
# Syntax trees

An expression is a `Tree`. Lets and records hold a list of items, each the definition of a name,
and functions a list of parameters. Where a part of a program could not be parsed a `Fault` stands
in its place: as an expression, as an item or as a parameter. Trees keep the tokens they were
built from, and the span of a tree is the span of its tokens.

Identities have no upper bound here. Where they are kept in 32 bits they are the same for every
parse that gives out fewer than `2 ^ 32` of them, those of nodes that were given up included.
-/

namespace LetScript

/-- The identity of a node within one parse. Identities are given out in increasing order. -/
abbrev NodeId := Nat

/-- Stands in for a part of a program that could not be parsed. -/
structure Fault where
  id : NodeId
  diagnostic : Diagnostic
  /-- The token at which the fault was found. -/
  token : Token
  /-- The tokens that were skipped. -/
  skipped : List Token

/-- A parameter of a function. -/
inductive Param where
  | name (id : NodeId) (token : Token)
  | fault (fault : Fault)

mutual

/-- An expression. -/
inductive Tree where
  /-- A reference to a name. -/
  | identifier (id : NodeId) (token : Token)
  /-- A number. -/
  | literal (id : NodeId) (token : Token) (value : Binary64)
  /-- The placeholder `...`. -/
  | placeholder (id : NodeId) (token : Token)
  /-- A part that could not be parsed. -/
  | fault (fault : Fault)
  /-- An expression in parentheses. -/
  | paren (id : NodeId) (opener : Token) (inner : Tree) (closer : Token)
  /-- `let a = 1; b = 2 in body`. -/
  | letIn (id : NodeId) (letToken : Token) (items : List Item) (inToken : Token) (body : Tree)
  /-- `fn a b => body`. -/
  | function (id : NodeId) (fnToken : Token) (params : List Param) (arrow : Token) (body : Tree)
  /-- A record, whose fields stand between curly brackets. -/
  | record (id : NodeId) (opener : Token) (items : List Item) (closer : Token)
  /-- A sign before its operand. -/
  | unary (id : NodeId) (operator : Token) (operand : Tree)
  /-- An operator between its operands. -/
  | binary (id : NodeId) (left : Tree) (operator : Token) (right : Tree)
  /-- A function followed by its argument. -/
  | apply (id : NodeId) (callee argument : Tree)

/-- An item of a let or a record. -/
inductive Item where
  /-- `name = value`. -/
  | definition (id : NodeId) (name equals : Token) (value : Tree)
  /-- A part that could not be parsed. -/
  | fault (fault : Fault)

end

/-- The span of the skipped tokens, or of the faulty token if none were skipped. -/
def Fault.span (fault : Fault) : Span :=
  match fault.skipped with
  | [] => fault.token.span
  | first :: rest => first.span.through ((rest.getLast?.getD first).span)

namespace Param

/-- The identity of a parameter. -/
def id : Param → NodeId
  | name id _ => id
  | fault f => f.id

/-- The span of a parameter. -/
def span : Param → Span
  | name _ token => token.span
  | fault f => f.span

/-- The identity and name of a parameter that was parsed. -/
def declared? : Param → Option (NodeId × String)
  | name id token => some (id, token.value)
  | fault _ => none

/-- The fault that stands for a parameter. -/
def fault? : Param → Option Fault
  | name _ _ => none
  | fault f => some f

end Param

namespace Tree

/-- The identity of the root of a tree. -/
def id : Tree → NodeId
  | identifier id _ => id
  | literal id _ _ => id
  | placeholder id _ => id
  | fault f => f.id
  | paren id _ _ _ => id
  | letIn id _ _ _ _ => id
  | function id _ _ _ _ => id
  | record id _ _ _ => id
  | unary id _ _ => id
  | binary id _ _ _ => id
  | apply id _ _ => id

/-- The span of a tree, from its first token to its last. -/
def span : Tree → Span
  | identifier _ token => token.span
  | literal _ token _ => token.span
  | placeholder _ token => token.span
  | fault f => f.span
  | paren _ opener _ closer => opener.span.through closer.span
  | letIn _ letToken _ _ body => letToken.span.through body.span
  | function _ fnToken _ _ body => fnToken.span.through body.span
  | record _ opener _ closer => opener.span.through closer.span
  | unary _ operator operand => operator.span.through operand.span
  | binary _ left _ right => left.span.through right.span
  | apply _ callee argument => callee.span.through argument.span

end Tree

namespace Item

/-- The identity of an item. -/
def id : Item → NodeId
  | definition id _ _ _ => id
  | fault f => f.id

/-- The span of an item, without the semicolon after it. -/
def span : Item → Span
  | definition _ name _ value => name.span.through value.span
  | fault f => f.span

/-- The identity and name of an item that was parsed. -/
def declared? : Item → Option (NodeId × String)
  | definition id name _ _ => some (id, name.value)
  | fault _ => none

/-- The fault that stands for an item. -/
def fault? : Item → Option Fault
  | definition _ _ _ _ => none
  | fault f => some f

end Item

mutual

/-- The height of a tree: the number of nodes on its longest downward path. Parameters do not
count. -/
def Tree.height : Tree → Nat
  | .identifier _ _ => 1
  | .literal _ _ _ => 1
  | .placeholder _ _ => 1
  | .fault _ => 1
  | .paren _ _ inner _ => inner.height + 1
  | .letIn _ _ items _ body => max (Item.listHeight items) body.height + 1
  | .function _ _ _ _ body => body.height + 1
  | .record _ _ items _ => Item.listHeight items + 1
  | .unary _ _ operand => operand.height + 1
  | .binary _ left _ right => max left.height right.height + 1
  | .apply _ callee argument => max callee.height argument.height + 1

/-- The height of an item. -/
def Item.height : Item → Nat
  | .definition _ _ _ value => value.height + 1
  | .fault _ => 1

/-- The greatest height of the items of a list. -/
def Item.listHeight : List Item → Nat
  | [] => 0
  | item :: items => max item.height (Item.listHeight items)

end

end LetScript
