import LetScript.Number.Shortest
import LetScript.Scope.Resolution
import LetScript.Script.Basic
import LetScript.Tree.Node

/-!
# From trees to scripts

`Tree.lower` gives the script of a tree whose identifiers have been resolved. It always succeeds:
faults, unresolved identifiers, placeholders and operators without a counterpart become failures.
A parameter that a later one of the same name hides gets a name that nothing refers to, counted
through the whole tree in the order in which the functions are met. The count has no upper bound
here, and is the same in 32 bits for fewer than `2 ^ 32` parameters that are hidden.
-/

namespace LetScript.Script

/-- The number of names given so far to parameters that are never used. -/
abbrev Naming := StateM Nat

/-- A new name for a parameter that is never used. -/
def freshUnused : Naming String := fun n => (unusedParam n, n + 1)

/-- The names of parameters. Only the last of several with the same name is kept. -/
def paramNames : List String → Naming (List String)
  | [] => pure []
  | name :: later => do
    let chosen ← if later.contains name then freshUnused else pure (mangle name)
    return chosen :: (← paramNames later)

/-- The text of a number. Infinity of either sign has a name of its own. -/
def numberText (value : Binary64) : String :=
  if value.isInfinite then "Infinity" else value.toText

/-- The script of an identifier. -/
def lowerIdentifier (bindings : Bindings) (id : NodeId) (name : String) : Expr :=
  match bindings.resolution? id with
  | some (.bound binding) =>
    match binding.kind with
    | .param => .variable (mangle name)
    | .definition => .property (scopeVariable binding.scope) name
    | .global => .property globalsName name
  | some (.unresolved diagnostic) => .failure diagnostic.message
  | none => .failure (Cause.unresolvedIdentifier name).message

/-- The message of the failure that stands for a fault. -/
def faultMessage (fault : Fault) : String := "Syntax error: " ++ fault.diagnostic.message

/-- The operator between two operands that a token stands for. -/
def binaryOperator? : Kind → Option Operator
  | .plus => some .plus
  | .dash => some .minus
  | .star => some .times
  | .slash => some .divide
  | _ => none

/-- The operator before an operand that a token stands for. -/
def unaryOperator? : Kind → Option Operator
  | .plus => some .plus
  | .dash => some .minus
  | _ => none

/-- The failure that stands for an operation without a counterpart. -/
def uncompilable (operator : Token) : Expr :=
  .failure (Cause.uncompilableOperator operator.value).message

/-- The variable that holds the definitions of a let. -/
def recordVariable (bindings : Bindings) (id : NodeId) : String :=
  match bindings.scopeOf? id with
  | some scope => scopeVariable scope
  | none => looseVariable id

end LetScript.Script

namespace LetScript

/-- A tree whose script can be called as it stands: an identifier or a call, also in
parentheses. -/
def Tree.isCallee : Tree → Bool
  | .identifier _ _ => true
  | .apply _ _ _ => true
  | .paren _ _ inner _ => inner.isCallee
  | _ => false

open Script

variable (bindings : Bindings) (curry : Bool)

mutual

/-- The script of a tree. -/
def Tree.lower : Tree → Naming Expr
  | .identifier id token => return lowerIdentifier bindings id token.value
  | .literal _ _ value => return .number (numberText value)
  | .placeholder _ _ => return .failure Cause.notImplemented.message
  | .fault fault => return .failure (faultMessage fault)
  | .paren _ _ inner _ => inner.lower
  | .letIn id _ items _ body => do
    let entries ← Item.lowerList items
    let failures := (items.filterMap Item.fault?).map faultMessage
    return .scoped (recordVariable bindings id) entries failures (← body.lower)
  | .function _ _ params _ body => do
    let names ← paramNames ((params.filterMap Param.declared?).map (·.2))
    let failures := (params.filterMap Param.fault?).map faultMessage
    return .function curry names failures (← body.lower)
  | .record _ _ items _ => do
    let entries ← Item.lowerList items
    match (items.filterMap Item.fault?).map faultMessage with
    | [] => return .record entries
    | failures => return .faultyRecord failures entries
  | .unary _ operator operand =>
    match unaryOperator? operator.kind with
    | some sign => return .unary sign (← operand.lower)
    | none => return uncompilable operator
  | .binary _ left operator right =>
    match binaryOperator? operator.kind with
    | some sign => do
      let left ← left.lower
      return .binary sign left (← right.lower)
    | none => return uncompilable operator
  | .apply _ callee argument => do
    let function ← callee.lower
    let function := if callee.isCallee then function else .paren function
    return .call function (← argument.lower)

/-- The scripts of the definitions among the items of a list. -/
def Item.lowerList : List Item → Naming (List Entry)
  | [] => return []
  | .fault _ :: items => Item.lowerList items
  | .definition _ name _ value :: items => do
    let value ← value.lower
    return .mk name.value value :: (← Item.lowerList items)

end

/-- The script of a node. A definition has none apart from its let or record. -/
def Node.lower : Node → Naming Expr
  | .tree t => t.lower bindings curry
  | .binding _ _ _ _ => return .failure "Unsupported node"
  | .field _ _ _ _ => return .failure "Unsupported node"

end LetScript
