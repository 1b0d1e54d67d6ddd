import LetScript.Tree.Basic

/-!
# Scopes

A scope holds the names declared by one let, by one function or by the host of the program. Within
a scope a later declaration of a name replaces an earlier one.

The identities of scopes have no upper bound here, like those of nodes. Where they are kept in 32
bits they are the same for every program with fewer than `2 ^ 32` lets and functions.
-/

namespace LetScript

/-- The identity of a scope. The scope of the host's names is scope 0. -/
abbrev ScopeId := Nat

/-- What declares a name. -/
inductive BindingKind where
  /-- A definition of a let. -/
  | definition
  /-- A parameter of a function. -/
  | param
  /-- The host of the program. -/
  | global
  deriving DecidableEq

/-- The name of a kind of binding. -/
def BindingKind.name : BindingKind → String
  | definition => "Let"
  | param => "Param"
  | global => "Global"

/-- A declared name: what declares it, in which scope and by which node. -/
structure Binding where
  name : String
  kind : BindingKind
  scope : ScopeId
  node : Option NodeId
  deriving DecidableEq

/-- The names declared by one node, or by the host of the program. -/
structure Scope where
  id : ScopeId
  /-- The scope around this one. -/
  parent : Option ScopeId
  /-- The let or function that opens the scope. -/
  node : Option NodeId
  /-- The declared names, the latest first, each name once. -/
  bindings : List Binding := []
  deriving DecidableEq

namespace Scope

/-- Declare a name. An earlier declaration of it is replaced. -/
def declare (scope : Scope) (name : String) (kind : BindingKind) (node : Option NodeId) :
    Scope :=
  { scope with
    bindings := ⟨name, kind, scope.id, node⟩ :: scope.bindings.filter (·.name ≠ name) }

/-- The declaration of a name in a scope. -/
def find? (scope : Scope) (name : String) : Option Binding :=
  scope.bindings.find? (·.name = name)

/-- Declare the names of a list of nodes, in order. -/
def declareAll (scope : Scope) (kind : BindingKind) (names : List (NodeId × String)) : Scope :=
  names.foldl (fun scope (node, name) => scope.declare name kind (some node)) scope

/-- The scope of the names that the host supplies. -/
def ofGlobals (names : List String) : Scope :=
  names.foldl (fun scope name => scope.declare name .global none)
    { id := 0, parent := none, node := none }

/-- The innermost declaration of a name in a scope or in the scopes around it. A scope is numbered
before those inside it. -/
def lookup (scopes : Array Scope) (name : String) (id : ScopeId) : Option Binding :=
  match scopes[id]? with
  | none => none
  | some scope =>
    match scope.find? name, scope.parent with
    | some binding, _ => some binding
    | none, none => none
    | none, some parent => if parent < id then lookup scopes name parent else none
termination_by id

/-- A name is declared as last declared. -/
@[simp] theorem find_declare_self (scope : Scope) (name : String) (kind : BindingKind)
    (node : Option NodeId) :
    (scope.declare name kind node).find? name = some ⟨name, kind, scope.id, node⟩ := by
  simp [declare, find?]

/-- Declaring a name leaves the other names alone. -/
theorem find_declare_of_ne (scope : Scope) {name other : String} (kind : BindingKind)
    (node : Option NodeId) (h : other ≠ name) :
    (scope.declare name kind node).find? other = scope.find? other := by
  simp only [declare, find?, List.find?_cons, decide_eq_false (Ne.symm h), List.find?_filter]
  congr 1
  funext binding
  by_cases hname : binding.name = other <;> simp [hname, h]

end Scope

end LetScript
