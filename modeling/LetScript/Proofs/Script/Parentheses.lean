import LetScript.Compile
import LetScript.Proofs.Parser.Identities
import LetScript.Proofs.Scope.Arena
import Mathlib.Data.List.Nodup

/-!
# Parentheses are transparent

`Tree.bare` is a tree without its parentheses: each of them gives way to the expression inside it,
and all other nodes stay (`Tree.labels_bare`). Nothing that is made of a parsed tree depends on
its parentheses (`Tree.parentheses_transparent`). For scripts and diagnostics this holds of every
tree. The binder takes its leave from a scope at the node that has opened it, which it knows by the
identity of the node, so there a parenthesis must not have the identity of a let or function.
-/

namespace LetScript

mutual

/-- A tree without its parentheses. -/
def Tree.bare : Tree → Tree
  | .identifier id token => .identifier id token
  | .literal id token value => .literal id token value
  | .placeholder id token => .placeholder id token
  | .fault fault => .fault fault
  | .paren _ _ inner _ => inner.bare
  | .letIn id letToken items inToken body =>
    .letIn id letToken (Item.bareList items) inToken body.bare
  | .function id fnToken params arrow body => .function id fnToken params arrow body.bare
  | .record id opener items closer => .record id opener (Item.bareList items) closer
  | .unary id operator operand => .unary id operator operand.bare
  | .binary id left operator right => .binary id left.bare operator right.bare
  | .apply id callee argument => .apply id callee.bare argument.bare

/-- An item without the parentheses in its value. -/
def Item.bare : Item → Item
  | .definition id name equals value => .definition id name equals value.bare
  | .fault fault => .fault fault

/-- Items without the parentheses in their values. -/
def Item.bareList : List Item → List Item
  | [] => []
  | item :: items => item.bare :: Item.bareList items

end

/-! ## Nodes -/

/-- The items of a list lose their parentheses one by one. -/
theorem Item.bare_list_eq (items : List Item) : Item.bareList items = items.map Item.bare := by
  induction items with
  | nil => rfl
  | cons item items ih => rw [Item.bareList, ih, List.map_cons]

/-- Items declare the same names. -/
theorem Item.declared_bare (items : List Item) :
    (Item.bareList items).filterMap Item.declared? = items.filterMap Item.declared? := by
  have hitem : Item.declared? ∘ Item.bare = Item.declared? := by
    funext item
    cases item <;> rfl
  rw [Item.bare_list_eq, List.filterMap_map, hitem]

/-- Items have the same faults. -/
theorem Item.faults_bare (items : List Item) :
    (Item.bareList items).filterMap Item.fault? = items.filterMap Item.fault? := by
  have hitem : Item.fault? ∘ Item.bare = Item.fault? := by
    funext item
    cases item <;> rfl
  rw [Item.bare_list_eq, List.filterMap_map, hitem]

/-- A node without the parentheses in it. -/
def Node.bare : Node → Node
  | .tree t => .tree t.bare
  | .binding id name equals value => .binding id name equals value.bare
  | .field id name equals value => .field id name equals value.bare

/-- A parenthesis. -/
def Node.isParen (node : Node) : Bool := node.kind = .paren

/-- A function that makes nodes of items, which are no parentheses. -/
structure Item.Nodes (toNode : Item → Node) : Prop where
  bare_eq (item : Item) : toNode item.bare = (toNode item).bare
  is_paren_eq (item : Item) : (toNode item).isParen = false

/-- The items of a let. -/
theorem Item.nodes_binding : Item.Nodes Node.ofBinding where
  bare_eq item := by cases item <;> rfl
  is_paren_eq item := by cases item <;> rfl

/-- The items of a record. -/
theorem Item.nodes_field : Item.Nodes Node.ofField where
  bare_eq item := by cases item <;> rfl
  is_paren_eq item := by cases item <;> rfl

/-- A node by its identity, kind and title, which say nothing of the nodes below it. -/
def Node.label (node : Node) : NodeId × NodeKind × String := (node.id, node.kind, node.title)

/-- A node that is no parenthesis keeps its label. -/
theorem Node.label_bare {node : Node} (h : node.isParen = false) :
    node.bare.label = node.label := by
  cases node with
  | binding | field => rfl
  | tree tree =>
      cases tree with
      | paren => cases h
      | identifier | literal | placeholder | fault | letIn | function | record | unary | binary
      | apply => rfl

/-- The labels of nodes. -/
def Node.labels (entries : List (Nat × Node)) : List (NodeId × NodeKind × String) :=
  entries.map fun entry => entry.2.label

/-- The nodes of a list that are no parentheses. -/
def Node.withoutParens (entries : List (Nat × Node)) : List (Nat × Node) :=
  entries.filter fun entry => !entry.2.isParen

section Labels

variable {entries entries' bares bares' : List (Nat × Node)}

/-- A node that is no parenthesis comes before others. -/
theorem Node.labels_cons {node : Node} (hnode : node.isParen = false)
    (h : Node.labels (Node.withoutParens entries) = Node.labels bares) (depth depth' : Nat) :
    Node.labels (Node.withoutParens ((depth, node) :: entries)) =
      Node.labels ((depth', node.bare) :: bares) := by
  have hfilter : Node.withoutParens ((depth, node) :: entries) =
      (depth, node) :: Node.withoutParens entries :=
    List.filter_cons_of_pos (by simp [hnode])
  rw [hfilter, Node.labels, Node.labels, List.map_cons, List.map_cons, Node.label_bare hnode]
  exact congrArg _ h

/-- Nodes one after the other. -/
theorem Node.labels_append (h : Node.labels (Node.withoutParens entries) = Node.labels bares)
    (h' : Node.labels (Node.withoutParens entries') = Node.labels bares') :
    Node.labels (Node.withoutParens (entries ++ entries')) = Node.labels (bares ++ bares') := by
  simp only [Node.labels, Node.withoutParens, List.map_append, List.filter_append] at h h' ⊢
  rw [h, h']

end Labels

mutual

/-- The nodes of a tree that are no parentheses are the nodes of the tree without its
parentheses. -/
theorem Tree.labels_bare (depth depth' : Nat) (tree : Tree) :
    Node.labels (Node.withoutParens (tree.nodesAt depth)) =
      Node.labels (tree.bare.nodesAt depth') := by
  cases tree with
  | identifier | literal | placeholder | fault => rfl
  | paren _ _ inner _ => exact inner.labels_bare (depth + 1) depth'
  | letIn _ _ items _ body =>
      exact Node.labels_cons rfl (Node.labels_append
        (Item.labels_bare_list Item.nodes_binding _ _ items) (body.labels_bare _ _)) depth depth'
  | function _ _ _ _ body => exact Node.labels_cons rfl (body.labels_bare _ _) depth depth'
  | record _ _ items _ =>
      exact Node.labels_cons rfl (Item.labels_bare_list Item.nodes_field _ _ items) depth depth'
  | unary _ _ operand => exact Node.labels_cons rfl (operand.labels_bare _ _) depth depth'
  | binary _ left _ right =>
      exact Node.labels_cons rfl
        (Node.labels_append (left.labels_bare _ _) (right.labels_bare _ _)) depth depth'
  | apply _ callee argument =>
      exact Node.labels_cons rfl
        (Node.labels_append (callee.labels_bare _ _) (argument.labels_bare _ _)) depth depth'

/-- The nodes of items that are no parentheses are the nodes of the items without their
parentheses. -/
theorem Item.labels_bare_list {toNode : Item → Node} (hnodes : Item.Nodes toNode)
    (depth depth' : Nat) (items : List Item) :
    Node.labels (Node.withoutParens (Item.listNodesAt toNode depth items)) =
      Node.labels (Item.listNodesAt toNode depth' (Item.bareList items)) := by
  cases items with
  | nil => rfl
  | cons item items =>
      refine Node.labels_append ?_ (Item.labels_bare_list hnodes depth depth' items)
      have hparen := hnodes.is_paren_eq item
      have hbare := hnodes.bare_eq item
      cases item with
      | definition id name equals value =>
          have hvalue := Node.labels_cons hparen (value.labels_bare (depth + 1) (depth' + 1))
            depth depth'
          rw [← hbare] at hvalue
          exact hvalue
      | fault fault =>
          have hnone : Node.labels (Node.withoutParens []) = Node.labels [] := rfl
          have hfault := Node.labels_cons hparen hnone depth depth'
          rw [← hbare] at hfault
          exact hfault

end

/-! ## Names -/

/-- Parentheses have identities of one sort, and lets and functions have others. -/
def Node.Separates (marked : NodeId → Prop) (node : Node) : Prop :=
  (node.isParen → marked node.id) ∧ ∀ id, node.opener? = some id → ¬ marked id

namespace Binder

/-- A node that is no parenthesis is entered as if there were none in it. -/
theorem enter_bare {node : Node} (h : node.isParen = false) (binder : Binder) :
    binder.enter node.bare = binder.enter node := by
  cases node with
  | binding | field => rfl
  | tree tree =>
      cases tree with
      | paren => cases h
      | letIn id letToken items inToken body =>
          show binder.openScope id .definition ((Item.bareList items).filterMap Item.declared?) = _
          rw [Item.declared_bare]
          rfl
      | identifier | literal | placeholder | fault | function | record | unary | binary
      | apply => rfl

/-- A node that is no parenthesis is left as if there were none in it. -/
theorem leave_bare {node : Node} (h : node.isParen = false) (binder : Binder) :
    binder.leave node.bare = binder.leave node := by
  have hid : node.bare.id = node.id := congrArg Prod.fst (Node.label_bare h)
  rw [leave, leave, hid]

/-- No scope belongs to a node with an identity of some sort. -/
def Avoids (marked : NodeId → Prop) (binder : Binder) : Prop :=
  ∀ (id : ScopeId) (scope : Scope), binder.scopes[id]? = some scope →
    ∀ node, scope.node = some node → ¬ marked node

variable {marked : NodeId → Prop} {binder : Binder} {node : Node}

/-- The scope of the host belongs to no node. -/
theorem avoids_start (marked : NodeId → Prop) (globals : List String) :
    (start globals).Avoids marked := by
  intro id scope hscope node hnode
  obtain ⟨hlt, heq⟩ := Array.getElem?_eq_some_iff.1 hscope
  obtain rfl := Nat.lt_one_iff.1 hlt
  obtain rfl : Scope.ofGlobals globals = scope := heq
  rw [(Scope.of_globals_frame globals).2] at hnode
  cases hnode

/-- Entering a node opens no scope for a parenthesis. -/
theorem Avoids.enter (h : binder.Avoids marked) (hnode : node.Separates marked) :
    (binder.enter node).Avoids marked := by
  rcases enter_cases node binder with ⟨-, resolutions, heq⟩ | ⟨kind, names, hopener, heq⟩
  · rw [heq]
    exact h
  · rw [heq]
    intro id scope hscope owner howner
    have hscopes := Array.getElem?_push.symm.trans hscope
    split at hscopes
    · obtain rfl := Option.some.inj hscopes
      rw [(Scope.declare_all_frame _ kind names).2.2] at howner
      exact Option.some.inj howner ▸ hnode.2 _ hopener
    · exact h id scope hscopes owner howner

/-- Leaving a node keeps the scopes. -/
theorem Avoids.leave (h : binder.Avoids marked) (node : Node) :
    (binder.leave node).Avoids marked := by
  unfold Binder.leave
  split
  · exact h
  · exact h

/-- A parenthesis leaves no scope. -/
theorem Avoids.leave_eq (h : binder.Avoids marked) (hnode : marked node.id) :
    binder.leave node = binder := by
  refine leave_of_outside fun hcurrent => ?_
  obtain ⟨scope, hscope, howner⟩ := Option.bind_eq_some_iff.1 hcurrent
  obtain ⟨id, -, hfound⟩ := Option.bind_eq_some_iff.1 hscope
  exact h id scope hfound _ howner hnode

/-- A walk and one without parentheses do the same to every binder in which no scope belongs to a
parenthesis, and open no such scope. -/
def Agree (marked : NodeId → Prop) (walk bare : Binder → Binder) : Prop :=
  ∀ binder : Binder, binder.Avoids marked → bare binder = walk binder ∧ (walk binder).Avoids marked

namespace Agree

variable {walk walk' bare bare' : Binder → Binder}

/-- Walks that do nothing. -/
theorem refl : Agree marked id id := fun _ h => ⟨rfl, h⟩

/-- Walks one after the other. -/
theorem comp (h : Agree marked walk bare) (h' : Agree marked walk' bare') :
    Agree marked (walk' ∘ walk) (bare' ∘ bare) := by
  intro binder hbinder
  obtain ⟨heq, hwalk⟩ := h binder hbinder
  show bare' (bare binder) = walk' (walk binder) ∧ _
  rw [heq]
  exact h' _ hwalk

/-- Walks below a node that stays. -/
theorem around (h : Agree marked walk bare) (hparen : node.isParen = false)
    (hnode : node.Separates marked) :
    Agree marked (leave node ∘ walk ∘ enter node) (leave node.bare ∘ bare ∘ enter node.bare) := by
  intro binder hbinder
  obtain ⟨heq, hwalk⟩ := h _ (hbinder.enter hnode)
  refine ⟨?_, hwalk.leave node⟩
  show leave node.bare (bare (enter node.bare binder)) = leave node (walk (enter node binder))
  rw [enter_bare hparen, leave_bare hparen, heq]

/-- Walks below a parenthesis. -/
theorem paren (h : Agree marked walk bare) {id : NodeId} {opener closer : Token} {inner : Tree}
    (hnode : (Node.tree (.paren id opener inner closer)).Separates marked) :
    Agree marked (leave (.tree (.paren id opener inner closer)) ∘ walk ∘
      enter (.tree (.paren id opener inner closer))) bare := by
  intro binder hbinder
  obtain ⟨heq, hwalk⟩ := h binder hbinder
  show bare binder = leave _ (walk binder) ∧ Avoids marked (leave _ (walk binder))
  -- entering a parenthesis does nothing, and leaving it nothing either if no scope belongs to it
  rw [hwalk.leave_eq (hnode.1 rfl)]
  exact ⟨heq, hwalk⟩

end Agree

end Binder

section Walk

variable {marked : NodeId → Prop}

mutual

/-- A tree without its parentheses is walked like the tree. -/
theorem Tree.walk_bare (tree : Tree) (h : tree.Every (Node.Separates marked)) :
    Binder.Agree marked (tree.walk Binder.enter Binder.leave)
      (tree.bare.walk Binder.enter Binder.leave) := by
  cases tree with
  | identifier | literal | placeholder | fault =>
      simp only [Tree.every_identifier, Tree.every_literal, Tree.every_placeholder,
        Tree.every_fault] at h
      exact Binder.Agree.refl.around rfl h
  | paren _ _ inner _ =>
      obtain ⟨hnode, hinner⟩ := Tree.every_paren.1 h
      exact (inner.walk_bare hinner).paren hnode
  | letIn _ _ items _ body =>
      obtain ⟨hnode, hitems, hbody⟩ := Tree.every_let_in.1 h
      exact ((Item.walk_list_bare Item.nodes_binding items hitems).comp
        (body.walk_bare hbody)).around rfl hnode
  | function _ _ _ _ body =>
      obtain ⟨hnode, hbody⟩ := Tree.every_function.1 h
      exact (body.walk_bare hbody).around rfl hnode
  | record _ _ items _ =>
      obtain ⟨hnode, hitems⟩ := Tree.every_record.1 h
      exact (Item.walk_list_bare Item.nodes_field items hitems).around rfl hnode
  | unary _ _ operand =>
      obtain ⟨hnode, hoperand⟩ := Tree.every_unary.1 h
      exact (operand.walk_bare hoperand).around rfl hnode
  | binary _ left _ right =>
      obtain ⟨hnode, hleft, hright⟩ := Tree.every_binary.1 h
      exact ((left.walk_bare hleft).comp (right.walk_bare hright)).around rfl hnode
  | apply _ callee argument =>
      obtain ⟨hnode, hcallee, hargument⟩ := Tree.every_apply.1 h
      exact ((callee.walk_bare hcallee).comp (argument.walk_bare hargument)).around rfl hnode

/-- Items without their parentheses are walked like the items. -/
theorem Item.walk_list_bare {toNode : Item → Node} (hnodes : Item.Nodes toNode) (items : List Item)
    (h : ∀ item ∈ items, item.Every toNode (Node.Separates marked)) :
    Binder.Agree marked (Item.walkList toNode Binder.enter Binder.leave items)
      (Item.walkList toNode Binder.enter Binder.leave (Item.bareList items)) := by
  cases items with
  | nil => exact .refl
  | cons item items =>
      obtain ⟨hitem, hitems⟩ := List.forall_mem_cons.1 h
      refine Binder.Agree.comp ?_ (Item.walk_list_bare hnodes items hitems)
      have hparen := hnodes.is_paren_eq item
      have hbare := hnodes.bare_eq item
      cases item with
      | definition id name equals value =>
          have hvalue := (value.walk_bare hitem.2).around hparen hitem.1
          rw [← hbare] at hvalue
          exact hvalue
      | fault fault =>
          have hfault := Binder.Agree.refl.around hparen hitem
          rw [← hbare] at hfault
          exact hfault

end

end Walk

/-- A node that opens a scope opens it for itself, and is no parenthesis. -/
theorem Node.of_opener {node : Node} {id : NodeId} (h : node.opener? = some id) :
    id = node.id ∧ node.isParen = false := by
  unfold Node.opener? at h
  split at h
  · exact ⟨(Option.some.inj h).symm, rfl⟩
  · exact ⟨(Option.some.inj h).symm, rfl⟩
  · cases h

/-- The identities of the parentheses of a tree. -/
def Tree.IsParen (tree : Tree) (id : NodeId) : Prop :=
  ∃ entry ∈ tree.nodes, entry.2.isParen ∧ entry.2.id = id

/-- In a tree where no two nodes have the same identity, no parenthesis has that of a let or
function. -/
theorem Tree.separates_of_nodup {tree : Tree} (h : tree.ids.Nodup) :
    tree.Every (Node.Separates tree.IsParen) := by
  intro entry hentry
  refine ⟨fun hparen => ⟨entry, hentry, hparen, rfl⟩, fun id hopener hmarked => ?_⟩
  obtain ⟨hid, hparen⟩ := Node.of_opener hopener
  obtain ⟨other, hother, hparen', hsame⟩ := hmarked
  -- a let or function with this identity would be the parenthesis itself
  obtain rfl : other = entry := List.inj_on_of_nodup_map h hother hentry (hsame.trans hid)
  rw [hparen] at hparen'
  cases hparen'

/-- The names of a tree resolve without its parentheses as with them. -/
theorem Tree.resolve_bare {tree : Tree} (h : tree.ids.Nodup) (globals : List String) :
    tree.bare.resolve globals = tree.resolve globals := by
  have hwalk := tree.walk_bare (Tree.separates_of_nodup h)
  exact congrArg Binder.toBindings (hwalk _ (Binder.avoids_start _ globals)).1

/-! ## Diagnostics and scripts -/

mutual

/-- A tree without its parentheses has the diagnostics of the tree. -/
theorem Tree.diagnostics_bare (bindings : Bindings) (tree : Tree) :
    tree.bare.diagnostics bindings = tree.diagnostics bindings := by
  cases tree with
  | identifier | literal | placeholder | fault => rfl
  | paren _ _ inner _ => exact inner.diagnostics_bare bindings
  | letIn _ _ items _ body =>
      simp only [Tree.bare, Tree.diagnostics, Item.list_diagnostics_bare bindings items,
        body.diagnostics_bare bindings]
  | function _ _ _ _ body =>
      simp only [Tree.bare, Tree.diagnostics, body.diagnostics_bare bindings]
  | record _ _ items _ => exact Item.list_diagnostics_bare bindings items
  | unary _ _ operand => exact operand.diagnostics_bare bindings
  | binary _ left _ right =>
      simp only [Tree.bare, Tree.diagnostics, left.diagnostics_bare bindings,
        right.diagnostics_bare bindings]
  | apply _ callee argument =>
      simp only [Tree.bare, Tree.diagnostics, callee.diagnostics_bare bindings,
        argument.diagnostics_bare bindings]

/-- Items without their parentheses have the diagnostics of the items. -/
theorem Item.list_diagnostics_bare (bindings : Bindings) (items : List Item) :
    Item.listDiagnostics bindings (Item.bareList items) = Item.listDiagnostics bindings items := by
  cases items with
  | nil => rfl
  | cons item items =>
      rw [Item.bareList, Item.listDiagnostics, Item.listDiagnostics,
        Item.list_diagnostics_bare bindings items]
      cases item with
      | definition _ _ _ value =>
          simp only [Item.bare, Item.diagnostics, value.diagnostics_bare bindings]
      | fault => rfl

end

/-- Whether a script can be called as it stands does not depend on parentheses. -/
theorem Tree.is_callee_bare (tree : Tree) : tree.bare.isCallee = tree.isCallee := by
  cases tree with
  | paren _ _ inner _ => exact inner.is_callee_bare
  | identifier | literal | placeholder | fault | letIn | function | record | unary | binary
  | apply => rfl

mutual

/-- A tree without its parentheses has the script of the tree. -/
theorem Tree.lower_bare (bindings : Bindings) (curry : Bool) (tree : Tree) :
    tree.bare.lower bindings curry = tree.lower bindings curry := by
  cases tree with
  | identifier | literal | placeholder | fault => rfl
  | paren _ _ inner _ => exact inner.lower_bare bindings curry
  | letIn _ _ items _ body =>
      simp only [Tree.bare, Tree.lower, Item.lower_list_bare bindings curry items,
        body.lower_bare bindings curry, Item.faults_bare]
  | function _ _ _ _ body =>
      simp only [Tree.bare, Tree.lower, body.lower_bare bindings curry]
  | record _ _ items _ =>
      simp only [Tree.bare, Tree.lower, Item.lower_list_bare bindings curry items,
        Item.faults_bare]
  | unary _ _ operand => simp only [Tree.bare, Tree.lower, operand.lower_bare bindings curry]
  | binary _ left _ right =>
      simp only [Tree.bare, Tree.lower, left.lower_bare bindings curry,
        right.lower_bare bindings curry]
  | apply _ callee argument =>
      simp only [Tree.bare, Tree.lower, callee.lower_bare bindings curry,
        argument.lower_bare bindings curry, Tree.is_callee_bare]

/-- The definitions among items have the same scripts without parentheses. -/
theorem Item.lower_list_bare (bindings : Bindings) (curry : Bool) (items : List Item) :
    Item.lowerList bindings curry (Item.bareList items) = Item.lowerList bindings curry items := by
  cases items with
  | nil => rfl
  | cons item items =>
      cases item with
      | definition _ _ _ value =>
          simp only [Item.bareList, Item.bare, Item.lowerList, value.lower_bare bindings curry,
            Item.lower_list_bare bindings curry items]
      | fault =>
          simp only [Item.bareList, Item.bare, Item.lowerList,
            Item.lower_list_bare bindings curry items]

end

/-- A generator appends the code of a tree without its parentheses as that of the tree. -/
theorem Generator.append_bare (generator : Generator) (bindings : Bindings) (options : Options)
    (tree : Tree) (document : Script.Expr → Doc) :
    generator.append bindings options (.tree tree.bare) document =
      generator.append bindings options (.tree tree) document := by
  simp only [Generator.append, Node.lower, Tree.lower_bare]

/-- Parentheses only group. Without them a parsed tree has all its other nodes, and it has the same
scopes, resolutions and diagnostics, and the same code as an expression and as a program. -/
theorem Tree.parentheses_transparent (tokens : Array Token) (globals : List String)
    (options : Options) :
    let tree := Tree.parse tokens
    let bindings := tree.resolve globals
    let bare := tree.bare
    Node.labels (Node.withoutParens tree.nodes) = Node.labels bare.nodes ∧
      bare.resolve globals = bindings ∧
      bare.diagnostics (bare.resolve globals) = tree.diagnostics bindings ∧
      bare.generate (bare.resolve globals) options = tree.generate bindings options ∧
      bare.generateProgram (bare.resolve globals) options =
        tree.generateProgram bindings options := by
  intro tree bindings bare
  have hresolve : bare.resolve globals = bindings :=
    Tree.resolve_bare (Tree.parse_ids_nodup tokens) globals
  refine ⟨tree.labels_bare 0 0, hresolve, ?_, ?_, ?_⟩
  · rw [hresolve]
    exact tree.diagnostics_bare bindings
  · rw [hresolve]
    exact congrArg (·.writer.output) (Generator.append_bare _ bindings options tree _)
  · rw [hresolve]
    exact congrArg (·.writer.output) (Generator.append_bare _ bindings options tree _)

end LetScript
