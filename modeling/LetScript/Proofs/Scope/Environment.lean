import LetScript.Proofs.Tree.Nodes
import LetScript.Scope.Basic

/-!
# Environments

An environment says for each name which declaration it refers to at some point of a program. A let
extends the environment for its definitions and its body, and a function for its body. Within one
node a later declaration of a name hides an earlier one, and faults declare nothing.
`Tree.references` gives the identifiers of a tree, each with the declaration that its name has in
the environment at this point. This is a recursion over the tree that knows nothing of scopes and
their numbers.
-/

namespace LetScript

/-- A declaration of a name in a program. -/
structure Declaration where
  kind : BindingKind
  /-- The let or function that the declaration belongs to. -/
  owner : NodeId
  /-- The definition or parameter. -/
  node : NodeId

/-- The declarations that names refer to at some point of a program. -/
abbrev Environment := String → Option Declaration

namespace Environment

/-- The environment in which nothing is declared. -/
def empty : Environment := fun _ => none

/-- The environment after a declaration of a name. -/
def declare (env : Environment) (name : String) (declaration : Declaration) : Environment :=
  fun other => if other = name then some declaration else env other

/-- A name refers to its last declaration. -/
@[simp] theorem declare_self (env : Environment) (name : String) (declaration : Declaration) :
    env.declare name declaration name = some declaration :=
  if_pos rfl

/-- Declaring a name leaves the other names alone. -/
theorem declare_of_ne (env : Environment) {name other : String} (declaration : Declaration)
    (h : other ≠ name) : env.declare name declaration other = env other :=
  if_neg h

/-- The environment after the declarations of a let or function. -/
def declareAll (env : Environment) (owner : NodeId) (kind : BindingKind)
    (names : List (NodeId × String)) : Environment :=
  names.foldl (fun env (node, name) => env.declare name ⟨kind, owner, node⟩) env

/-- A name that is not declared refers to the same as before. -/
theorem declare_all_of_not_mem (env : Environment) (owner : NodeId)
    (kind : BindingKind) {names : List (NodeId × String)} {name : String}
    (h : name ∉ names.map (·.2)) : env.declareAll owner kind names name = env name := by
  unfold declareAll
  induction names generalizing env with
  | nil => rfl
  | cons entry names ih =>
      obtain ⟨hfirst, hrest⟩ := not_or.1 (mt List.mem_cons.2 h)
      exact (ih _ hrest).trans (env.declare_of_ne _ hfirst)

/-- A name refers to the same as before or to one of the new declarations. -/
theorem declare_all_cases (env : Environment) (owner : NodeId) (kind : BindingKind)
    (names : List (NodeId × String)) (name : String) :
    env.declareAll owner kind names name = env name ∨
      ∃ node, (node, name) ∈ names ∧
        env.declareAll owner kind names name = some ⟨kind, owner, node⟩ := by
  unfold declareAll
  induction names generalizing env with
  | nil => exact .inl rfl
  | cons entry names ih =>
      obtain ⟨node, first⟩ := entry
      rcases ih (env.declare first ⟨kind, owner, node⟩) with heq | ⟨node', hmem, heq⟩
      · by_cases hname : name = first
        · subst hname
          exact .inr ⟨node, List.mem_cons_self .., heq.trans (env.declare_self ..)⟩
        · exact .inl (heq.trans (env.declare_of_ne _ hname))
      · exact .inr ⟨node', List.mem_cons_of_mem _ hmem, heq⟩

/-- The environment inside a let. Each definition declares its name, and a fault nothing. -/
def declareItems (env : Environment) (owner : NodeId) : List Item → Environment
  | [] => env
  | .definition node name _ _ :: items =>
    (env.declare name.value ⟨.definition, owner, node⟩).declareItems owner items
  | .fault _ :: items => env.declareItems owner items

/-- The environment inside a function. Each parameter declares its name, and a fault nothing. -/
def declareParams (env : Environment) (owner : NodeId) : List Param → Environment
  | [] => env
  | .name node token :: params =>
    (env.declare token.value ⟨.param, owner, node⟩).declareParams owner params
  | .fault _ :: params => env.declareParams owner params

/-- A let declares the names that its items declare. -/
theorem declare_items_eq (env : Environment) (owner : NodeId) (items : List Item) :
    env.declareItems owner items =
      env.declareAll owner .definition (items.filterMap Item.declared?) := by
  induction items generalizing env with
  | nil => rfl
  | cons item items ih =>
      cases item with
      | definition node name equals value => exact ih _
      | fault f => exact ih _

/-- A function declares the names that its parameters declare. -/
theorem declare_params_eq (env : Environment) (owner : NodeId) (params : List Param) :
    env.declareParams owner params =
      env.declareAll owner .param (params.filterMap Param.declared?) := by
  induction params generalizing env with
  | nil => rfl
  | cons param params ih =>
      cases param with
      | name node token => exact ih _
      | fault f => exact ih _

end Environment

/-- An identifier and the declaration that its name refers to. -/
structure Reference where
  id : NodeId
  token : Token
  declaration : Option Declaration

mutual

/-- The identifiers of a tree in source order, with what they refer to in an environment. -/
def Tree.references (env : Environment) : Tree → List Reference
  | .identifier id token => [⟨id, token, env token.value⟩]
  | .literal _ _ _ => []
  | .placeholder _ _ => []
  | .fault _ => []
  | .paren _ _ inner _ => inner.references env
  | .letIn id _ items _ body =>
    let inner := env.declareItems id items
    Item.listReferences inner items ++ body.references inner
  | .function id _ params _ body =>
    body.references (env.declareParams id params)
  | .record _ _ items _ => Item.listReferences env items
  | .unary _ _ operand => operand.references env
  | .binary _ left _ right => left.references env ++ right.references env
  | .apply _ callee argument => callee.references env ++ argument.references env

/-- The identifiers of an item. -/
def Item.references (env : Environment) : Item → List Reference
  | .definition _ _ _ value => value.references env
  | .fault _ => []

/-- The identifiers of the items of a list. -/
def Item.listReferences (env : Environment) : List Item → List Reference
  | [] => []
  | item :: items => item.references env ++ Item.listReferences env items

end

/-- The identity and token of a node that is an identifier. -/
def Node.identifier? : Node → Option (NodeId × Token)
  | .tree (.identifier id token) => some (id, token)
  | _ => none

mutual

/-- The references of a tree are its identifiers, in the order of its nodes. -/
theorem Tree.map_references (env : Environment) (depth : Nat) (tree : Tree) :
    (tree.references env).map (fun reference => (reference.id, reference.token)) =
      (tree.nodesAt depth).filterMap fun entry => entry.2.identifier? := by
  cases tree with
  | identifier | literal | placeholder | fault => rfl
  | paren _ _ inner _ =>
      rw [Tree.nodesAt, List.filterMap_cons]
      exact inner.map_references env (depth + 1)
  | letIn _ _ items _ body =>
      show _ = (Item.listNodesAt Node.ofBinding (depth + 1) items ++
        body.nodesAt (depth + 1)).filterMap fun entry => entry.2.identifier?
      rw [Tree.references, List.map_append, List.filterMap_append,
        Item.map_list_references Node.ofBinding (fun item => by cases item <;> rfl) _ (depth + 1),
        body.map_references _ (depth + 1)]
  | function _ _ _ _ body =>
      rw [Tree.nodesAt, List.filterMap_cons]
      exact body.map_references _ (depth + 1)
  | record _ _ items _ =>
      rw [Tree.nodesAt, List.filterMap_cons]
      exact Item.map_list_references Node.ofField (fun item => by cases item <;> rfl) env
        (depth + 1) items
  | unary _ _ operand =>
      rw [Tree.nodesAt, List.filterMap_cons]
      exact operand.map_references env (depth + 1)
  | binary _ left _ right =>
      show _ = (left.nodesAt (depth + 1) ++ right.nodesAt (depth + 1)).filterMap fun entry =>
        entry.2.identifier?
      rw [Tree.references, List.map_append, List.filterMap_append,
        left.map_references env (depth + 1), right.map_references env (depth + 1)]
  | apply _ callee argument =>
      show _ = (callee.nodesAt (depth + 1) ++ argument.nodesAt (depth + 1)).filterMap fun entry =>
        entry.2.identifier?
      rw [Tree.references, List.map_append, List.filterMap_append,
        callee.map_references env (depth + 1), argument.map_references env (depth + 1)]

/-- The references of an item are its identifiers. -/
theorem Item.map_references (toNode : Item → Node)
    (hnode : ∀ item, (toNode item).identifier? = none) (env : Environment) (depth : Nat)
    (item : Item) :
    (item.references env).map (fun reference => (reference.id, reference.token)) =
      (item.nodesAt toNode depth).filterMap fun entry => entry.2.identifier? := by
  cases item with
  | definition id name equals value =>
      rw [Item.nodesAt, List.filterMap_cons, hnode]
      exact value.map_references env (depth + 1)
  | fault f =>
      rw [Item.nodesAt, List.filterMap_cons, hnode]
      rfl

/-- The references of a list of items are its identifiers. -/
theorem Item.map_list_references (toNode : Item → Node)
    (hnode : ∀ item, (toNode item).identifier? = none) (env : Environment) (depth : Nat)
    (items : List Item) :
    (Item.listReferences env items).map (fun reference => (reference.id, reference.token)) =
      (Item.listNodesAt toNode depth items).filterMap fun entry => entry.2.identifier? := by
  cases items with
  | nil => rfl
  | cons item items =>
      rw [Item.listReferences, Item.listNodesAt, List.map_append, List.filterMap_append,
        item.map_references toNode hnode env depth,
        Item.map_list_references toNode hnode env depth items]

end

end LetScript
