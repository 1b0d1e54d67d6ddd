import LetScript.Scope.Basic
import LetScript.Tree.Node
import Std.Data.ExtTreeMap

/-!
# Resolving names

Every identifier of a tree is resolved to the innermost declaration of its name. A binder walks
through the tree: a let opens a scope for its definitions and its body, and a function one for its
body, and the scope is left with the node that has opened it. Scopes are numbered in the order in
which the tree is read, and `Tree.resolve` gives all scopes together with the resolution of each
identifier and the scope of each let and function.
-/

namespace LetScript

/-- The outcome of looking up an identifier. -/
inductive Resolution where
  | bound (binding : Binding)
  | unresolved (diagnostic : Diagnostic)
  deriving DecidableEq

/-- The outcome for an identifier whose name was looked up. -/
def Resolution.ofLookup (token : Token) : Option Binding → Resolution
  | some binding => .bound binding
  | none => .unresolved ⟨.unresolvedIdentifier token.value, token.span.start⟩

/-- The scopes of a tree in the order of the tree, the resolution of each identifier and the scope
of each let and function. -/
structure Bindings where
  scopes : Array Scope
  resolutions : Std.ExtTreeMap NodeId Resolution := ∅
  nodeScopes : Std.ExtTreeMap NodeId ScopeId := ∅

namespace Bindings

/-- The resolution of an identifier. -/
def resolution? (bindings : Bindings) (id : NodeId) : Option Resolution :=
  bindings.resolutions[id]?

/-- The declaration that an identifier refers to. -/
def binding? (bindings : Bindings) (id : NodeId) : Option Binding :=
  match bindings.resolution? id with
  | some (.bound binding) => some binding
  | _ => none

/-- Why an identifier refers to nothing. -/
def diagnostic? (bindings : Bindings) (id : NodeId) : Option Diagnostic :=
  match bindings.resolution? id with
  | some (.unresolved diagnostic) => some diagnostic
  | _ => none

/-- The scope that a let or function opens. -/
def scopeOf? (bindings : Bindings) (id : NodeId) : Option ScopeId :=
  bindings.nodeScopes[id]?

end Bindings

/-- A binder on its way through a tree: what it has found, and the scopes that it has entered and
not yet left, the innermost first. -/
structure Binder extends Bindings where
  path : List ScopeId

namespace Binder

/-- A binder before a tree. It has entered the scope of the names that the host supplies. -/
def start (globals : List String) : Binder where
  scopes := #[.ofGlobals globals]
  path := [0]

/-- The innermost scope that was entered and not yet left. -/
def current? (binder : Binder) : Option Scope :=
  binder.path.head?.bind fun id => binder.scopes[id]?

/-- The declaration that a name refers to at this point of the tree. -/
def lookup (binder : Binder) (name : String) : Option Binding :=
  binder.path.head?.bind (Scope.lookup binder.scopes name)

/-- Resolve an identifier at this point of the tree. -/
def resolve (binder : Binder) (id : NodeId) (token : Token) : Binder :=
  { binder with
    resolutions := binder.resolutions.insert id (.ofLookup token (binder.lookup token.value)) }

/-- Enter a new scope for a node, in which some names are declared. -/
def openScope (binder : Binder) (node : NodeId) (kind : BindingKind)
    (names : List (NodeId × String)) : Binder :=
  let id := binder.scopes.size
  let scope : Scope := { id, parent := binder.path.head?, node := some node }
  { scopes := binder.scopes.push (scope.declareAll kind names)
    resolutions := binder.resolutions
    nodeScopes := binder.nodeScopes.insert node id
    path := id :: binder.path }

/-- Enter a node: an identifier is resolved, and a let or function opens a scope for the names it
declares. -/
def enter (node : Node) (binder : Binder) : Binder :=
  match node with
  | .tree (.identifier id token) => binder.resolve id token
  | .tree (.letIn id _ items _ _) =>
    binder.openScope id .definition (items.filterMap Item.declared?)
  | .tree (.function id _ params _ _) =>
    binder.openScope id .param (params.filterMap Param.declared?)
  | _ => binder

/-- Leave a node, and the innermost scope if the node has opened it. -/
def leave (node : Node) (binder : Binder) : Binder :=
  if binder.current?.bind Scope.node = some node.id then
    { binder with path := binder.path.tail }
  else binder

end Binder

/-- Resolve the identifiers of a tree, where the host supplies some names. -/
def Tree.resolve (tree : Tree) (globals : List String) : Bindings :=
  (tree.walk Binder.enter Binder.leave (.start globals)).toBindings

end LetScript
