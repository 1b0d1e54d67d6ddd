import LetScript.Scope.Resolution

/-!
# The diagnostics of a tree

The diagnostics of a tree are those of its faults and of its unresolved identifiers, in the order
of the tree. A fault reports its own diagnostic and those of the invalid tokens it skipped, apart
from the token at which it was found.
-/

namespace LetScript

/-- The diagnostic of a fault, followed by those of the other tokens it skipped. -/
def Fault.diagnostics (fault : Fault) : List Diagnostic :=
  fault.diagnostic ::
    fault.skipped.filterMap fun token => if token = fault.token then none else token.diagnostic

mutual

/-- The diagnostics of a tree whose identifiers have been resolved. -/
def Tree.diagnostics (bindings : Bindings) : Tree → List Diagnostic
  | .identifier id _ => (bindings.diagnostic? id).toList
  | .literal _ _ _ => []
  | .placeholder _ _ => []
  | .fault fault => fault.diagnostics
  | .paren _ _ inner _ => inner.diagnostics bindings
  | .letIn _ _ items _ body => Item.listDiagnostics bindings items ++ body.diagnostics bindings
  | .function _ _ params _ body =>
    (params.filterMap Param.fault?).flatMap Fault.diagnostics ++ body.diagnostics bindings
  | .record _ _ items _ => Item.listDiagnostics bindings items
  | .unary _ _ operand => operand.diagnostics bindings
  | .binary _ left _ right => left.diagnostics bindings ++ right.diagnostics bindings
  | .apply _ callee argument => callee.diagnostics bindings ++ argument.diagnostics bindings

/-- The diagnostics of an item. -/
def Item.diagnostics (bindings : Bindings) : Item → List Diagnostic
  | .definition _ _ _ value => value.diagnostics bindings
  | .fault fault => fault.diagnostics

/-- The diagnostics of the items of a list. -/
def Item.listDiagnostics (bindings : Bindings) : List Item → List Diagnostic
  | [] => []
  | item :: items => item.diagnostics bindings ++ Item.listDiagnostics bindings items

end

end LetScript
