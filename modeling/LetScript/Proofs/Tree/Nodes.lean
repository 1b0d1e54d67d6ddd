import LetScript.Tree.Node

/-!
# Nodes and their parents

Every node of a tree is its root or stands directly below another node of the tree
(`Tree.rooted_nodes_at`). Definitions of a let stand below a let and fields of a record below a
record, and no parameter is a node (`Tree.list_nodes_in_lists`). A property of all nodes
(`Tree.Every`) and the identities of all nodes (`Tree.ids`) are those of the root together with
those of its parts.
-/

namespace LetScript

/-- A node directly below another one is a tree, an item of a let or an item of a record. -/
theorem Node.of_mem_children {node child : Node} (h : child ∈ node.children) :
    (∃ tree, child = .tree tree) ∨ (node.kind = .letIn ∧ ∃ item, child = .ofBinding item) ∨
      (node.kind = .record ∧ ∃ item, child = .ofField item) := by
  cases node with
  | binding id name equals value => exact .inl ⟨value, List.mem_singleton.1 h⟩
  | field id name equals value => exact .inl ⟨value, List.mem_singleton.1 h⟩
  | tree tree =>
      cases tree with
      | identifier | literal | placeholder | fault => exact absurd h List.not_mem_nil
      | paren _ _ inner _ => exact .inl ⟨inner, List.mem_singleton.1 h⟩
      | function _ _ _ _ body => exact .inl ⟨body, List.mem_singleton.1 h⟩
      | unary _ _ operand => exact .inl ⟨operand, List.mem_singleton.1 h⟩
      | binary _ left _ right =>
          rcases List.mem_cons.1 h with h | h
          · exact .inl ⟨left, h⟩
          · exact .inl ⟨right, List.mem_singleton.1 h⟩
      | apply _ callee argument =>
          rcases List.mem_cons.1 h with h | h
          · exact .inl ⟨callee, h⟩
          · exact .inl ⟨argument, List.mem_singleton.1 h⟩
      | letIn _ _ items _ body =>
          rcases List.mem_append.1 h with h | h
          · obtain ⟨item, -, rfl⟩ := List.mem_map.1 h
            exact .inr (.inl ⟨rfl, item, rfl⟩)
          · exact .inl ⟨body, List.mem_singleton.1 h⟩
      | record _ _ items _ =>
          obtain ⟨item, -, rfl⟩ := List.mem_map.1 h
          exact .inr (.inr ⟨rfl, item, rfl⟩)

/-- A tree is neither a definition of a let, nor a field, nor a parameter. -/
theorem Node.kind_tree (tree : Tree) : (Node.tree tree).kind ≠ .binding ∧
    (Node.tree tree).kind ≠ .field ∧ (Node.tree tree).kind ≠ .param := by
  cases tree <;> simp [Node.kind, Tree.kind]

/-- Below a node there are definitions of a let only below a let, fields only below a record, and
no parameters. -/
theorem Node.kind_of_mem_children {node child : Node} (h : child ∈ node.children) :
    (child.kind = .binding → node.kind = .letIn) ∧ (child.kind = .field → node.kind = .record) ∧
      child.kind ≠ .param := by
  rcases Node.of_mem_children h with ⟨tree, rfl⟩ | ⟨hnode, item, rfl⟩ | ⟨hnode, item, rfl⟩
  · obtain ⟨hbinding, hfield, hparam⟩ := Node.kind_tree tree
    exact ⟨fun h => absurd h hbinding, fun h => absurd h hfield, hparam⟩
  · have hitem : (Node.ofBinding item).kind ≠ .field ∧ (Node.ofBinding item).kind ≠ .param := by
      cases item <;> simp [Node.ofBinding, Node.kind, Tree.kind]
    exact ⟨fun _ => hnode, fun h => absurd h hitem.1, hitem.2⟩
  · have hitem : (Node.ofField item).kind ≠ .binding ∧ (Node.ofField item).kind ≠ .param := by
      cases item <;> simp [Node.ofField, Node.kind, Tree.kind]
    exact ⟨fun h => absurd h hitem.1, fun _ => hnode, hitem.2⟩

/-- Every entry of a list is a given root or stands directly below another entry of it. -/
def Rooted (roots : List Node) (entries : List (Nat × Node)) : Prop :=
  ∀ entry ∈ entries, entry.2 ∈ roots ∨ ∃ parent ∈ entries, entry.2 ∈ parent.2.children

namespace Rooted

/-- Two lists of entries may be joined. -/
theorem append {roots roots' : List Node} {entries entries' : List (Nat × Node)}
    (h : Rooted roots entries) (h' : Rooted roots' entries') :
    Rooted (roots ++ roots') (entries ++ entries') := by
  intro entry hentry
  rcases List.mem_append.1 hentry with hentry | hentry
  · rcases h entry hentry with hroot | ⟨parent, hparent, hchild⟩
    · exact .inl (List.mem_append_left _ hroot)
    · exact .inr ⟨parent, List.mem_append_left _ hparent, hchild⟩
  · rcases h' entry hentry with hroot | ⟨parent, hparent, hchild⟩
    · exact .inl (List.mem_append_right _ hroot)
    · exact .inr ⟨parent, List.mem_append_right _ hparent, hchild⟩

/-- The entries below a node may be put after it. -/
theorem cons {node : Node} {entries : List (Nat × Node)} (depth : Nat)
    (h : Rooted node.children entries) : Rooted [node] ((depth, node) :: entries) := by
  intro entry hentry
  rcases List.mem_cons.1 hentry with rfl | hentry
  · exact .inl (List.mem_singleton.2 rfl)
  · rcases h entry hentry with hchild | ⟨parent, hparent, hchild⟩
    · exact .inr ⟨_, List.mem_cons_self .., hchild⟩
    · exact .inr ⟨parent, List.mem_cons_of_mem _ hparent, hchild⟩

/-- No entries need no roots. -/
theorem nil (roots : List Node) : Rooted roots [] := by
  intro entry hentry
  exact absurd hentry List.not_mem_nil

end Rooted

mutual

/-- The nodes of a tree hang together below its root. -/
theorem Tree.rooted_nodes_at (depth : Nat) (tree : Tree) :
    Rooted [.tree tree] (tree.nodesAt depth) := by
  cases tree with
  | identifier | literal | placeholder | fault =>
      simp only [Tree.nodesAt]
      exact .cons depth (.nil _)
  | paren _ _ inner _ =>
      simp only [Tree.nodesAt]
      exact .cons depth (inner.rooted_nodes_at (depth + 1))
  | letIn _ _ items _ body =>
      simp only [Tree.nodesAt]
      exact .cons depth ((Item.rooted_list_nodes_at Node.ofBinding (fun _ _ _ _ => rfl)
        (depth + 1) items).append (body.rooted_nodes_at (depth + 1)))
  | function _ _ _ _ body =>
      simp only [Tree.nodesAt]
      exact .cons depth (body.rooted_nodes_at (depth + 1))
  | record _ _ items _ =>
      simp only [Tree.nodesAt]
      exact .cons depth (Item.rooted_list_nodes_at Node.ofField (fun _ _ _ _ => rfl)
        (depth + 1) items)
  | unary _ _ operand =>
      simp only [Tree.nodesAt]
      exact .cons depth (operand.rooted_nodes_at (depth + 1))
  | binary _ left _ right =>
      simp only [Tree.nodesAt]
      exact .cons depth ((left.rooted_nodes_at (depth + 1)).append
        (right.rooted_nodes_at (depth + 1)))
  | apply _ callee argument =>
      simp only [Tree.nodesAt]
      exact .cons depth ((callee.rooted_nodes_at (depth + 1)).append
        (argument.rooted_nodes_at (depth + 1)))

/-- The nodes of an item hang together below its own node. -/
theorem Item.rooted_nodes_at (toNode : Item → Node)
    (hchildren : ∀ id name equals value,
      (toNode (.definition id name equals value)).children = [.tree value])
    (depth : Nat) (item : Item) : Rooted [toNode item] (item.nodesAt toNode depth) := by
  cases item with
  | definition id name equals value =>
      simp only [Item.nodesAt]
      refine .cons depth ?_
      rw [hchildren]
      exact value.rooted_nodes_at (depth + 1)
  | fault =>
      simp only [Item.nodesAt]
      exact .cons depth (.nil _)

/-- The nodes of a list of items hang together below the nodes of the items. -/
theorem Item.rooted_list_nodes_at (toNode : Item → Node)
    (hchildren : ∀ id name equals value,
      (toNode (.definition id name equals value)).children = [.tree value])
    (depth : Nat) (items : List Item) :
    Rooted (items.map toNode) (Item.listNodesAt toNode depth items) := by
  cases items with
  | nil => exact .nil _
  | cons item items =>
      simp only [Item.listNodesAt]
      exact (Item.rooted_nodes_at toNode hchildren depth item).append
        (Item.rooted_list_nodes_at toNode hchildren depth items)

end

/-- A definition of a let stands in the list of a let, a field in the list of a record, and no
parameter is a node. -/
theorem Tree.list_nodes_in_lists (tree : Tree) {entry : Nat × Node} (h : entry ∈ tree.nodes) :
    (entry.2.kind = .binding →
        ∃ parent ∈ tree.nodes, parent.2.kind = .letIn ∧ entry.2 ∈ parent.2.children) ∧
      (entry.2.kind = .field →
        ∃ parent ∈ tree.nodes, parent.2.kind = .record ∧ entry.2 ∈ parent.2.children) ∧
      entry.2.kind ≠ .param := by
  rcases tree.rooted_nodes_at 0 entry h with hroot | ⟨parent, hparent, hchild⟩
  · obtain ⟨hbinding, hfield, hparam⟩ := Node.kind_tree tree
    rw [List.mem_singleton.1 hroot]
    exact ⟨fun h => absurd h hbinding, fun h => absurd h hfield, hparam⟩
  · obtain ⟨hbinding, hfield, hparam⟩ := Node.kind_of_mem_children hchild
    exact ⟨fun h => ⟨parent, hparent, hbinding h, hchild⟩,
      fun h => ⟨parent, hparent, hfield h, hchild⟩, hparam⟩

/-! ## Properties of all nodes -/

mutual

/-- The nodes of a tree are the same at every depth. -/
theorem Tree.map_nodes_at (depth depth' : Nat) (tree : Tree) :
    (tree.nodesAt depth).map Prod.snd = (tree.nodesAt depth').map Prod.snd := by
  cases tree with
  | identifier | literal | placeholder | fault => simp only [Tree.nodesAt, List.map_cons]
  | paren _ _ inner _ =>
      simp only [Tree.nodesAt, List.map_cons, inner.map_nodes_at (depth + 1) (depth' + 1)]
  | letIn _ _ items _ body =>
      simp only [Tree.nodesAt, List.map_cons, List.map_append,
        Item.map_list_nodes_at Node.ofBinding (depth + 1) (depth' + 1) items,
        body.map_nodes_at (depth + 1) (depth' + 1)]
  | function _ _ _ _ body =>
      simp only [Tree.nodesAt, List.map_cons, body.map_nodes_at (depth + 1) (depth' + 1)]
  | record _ _ items _ =>
      simp only [Tree.nodesAt, List.map_cons,
        Item.map_list_nodes_at Node.ofField (depth + 1) (depth' + 1) items]
  | unary _ _ operand =>
      simp only [Tree.nodesAt, List.map_cons, operand.map_nodes_at (depth + 1) (depth' + 1)]
  | binary _ left _ right =>
      simp only [Tree.nodesAt, List.map_cons, List.map_append,
        left.map_nodes_at (depth + 1) (depth' + 1), right.map_nodes_at (depth + 1) (depth' + 1)]
  | apply _ callee argument =>
      simp only [Tree.nodesAt, List.map_cons, List.map_append,
        callee.map_nodes_at (depth + 1) (depth' + 1),
        argument.map_nodes_at (depth + 1) (depth' + 1)]

/-- The nodes of a list of items are the same at every depth. -/
theorem Item.map_list_nodes_at (toNode : Item → Node) (depth depth' : Nat) (items : List Item) :
    (Item.listNodesAt toNode depth items).map Prod.snd =
      (Item.listNodesAt toNode depth' items).map Prod.snd := by
  cases items with
  | nil => rfl
  | cons item items =>
      simp only [Item.listNodesAt, List.map_append, item.map_nodes_at toNode depth depth',
        Item.map_list_nodes_at toNode depth depth' items]

/-- The nodes of an item are the same at every depth. -/
theorem Item.map_nodes_at (toNode : Item → Node) (depth depth' : Nat) (item : Item) :
    (item.nodesAt toNode depth).map Prod.snd = (item.nodesAt toNode depth').map Prod.snd := by
  cases item with
  | definition _ _ _ value =>
      simp only [Item.nodesAt, List.map_cons, value.map_nodes_at (depth + 1) (depth' + 1)]
  | fault => simp only [Item.nodesAt, List.map_cons]

end

/-- A property holds of every node of a tree. -/
def Tree.Every (P : Node → Prop) (tree : Tree) : Prop := ∀ entry ∈ tree.nodes, P entry.2

/-- A property holds of the node of an item and of every node below it. -/
def Item.Every (toNode : Item → Node) (P : Node → Prop) : Item → Prop
  | .definition id name equals value =>
    P (toNode (.definition id name equals value)) ∧ value.Every P
  | .fault f => P (toNode (.fault f))

section Every

variable {P : Node → Prop}

/-- A property of all nodes does not depend on the depth of the tree. -/
theorem Tree.every_at (depth : Nat) (tree : Tree) :
    (∀ entry ∈ tree.nodesAt depth, P entry.2) ↔ tree.Every P := by
  unfold Tree.Every Tree.nodes
  rw [← List.forall_mem_map, ← List.forall_mem_map (l := tree.nodesAt 0),
    tree.map_nodes_at depth 0]

/-- A property holds of all nodes of an item at some depth. -/
theorem Item.every_at (toNode : Item → Node) (depth : Nat) (item : Item) :
    (∀ entry ∈ item.nodesAt toNode depth, P entry.2) ↔ item.Every toNode P := by
  cases item with
  | definition id name equals value =>
      simp only [Item.nodesAt, List.forall_mem_cons, Tree.every_at, Item.Every]
  | fault fault => simp only [Item.nodesAt, List.forall_mem_singleton, Item.Every]

/-- A property holds of all nodes of a list of items at some depth. -/
theorem Item.every_list_at (toNode : Item → Node) (depth : Nat) (items : List Item) :
    (∀ entry ∈ Item.listNodesAt toNode depth items, P entry.2) ↔
      ∀ item ∈ items, item.Every toNode P := by
  induction items with
  | nil => simp [Item.listNodesAt]
  | cons item items ih =>
      simp only [Item.listNodesAt, List.forall_mem_append, List.forall_mem_cons, Item.every_at, ih]

@[simp] theorem Tree.every_identifier {id : NodeId} {token : Token} :
    (Tree.identifier id token).Every P ↔ P (.tree (.identifier id token)) := by
  simp [Tree.Every, Tree.nodes, Tree.nodesAt]

@[simp] theorem Tree.every_literal {id : NodeId} {token : Token} {value : Binary64} :
    (Tree.literal id token value).Every P ↔ P (.tree (.literal id token value)) := by
  simp [Tree.Every, Tree.nodes, Tree.nodesAt]

@[simp] theorem Tree.every_placeholder {id : NodeId} {token : Token} :
    (Tree.placeholder id token).Every P ↔ P (.tree (.placeholder id token)) := by
  simp [Tree.Every, Tree.nodes, Tree.nodesAt]

@[simp] theorem Tree.every_fault {f : Fault} :
    (Tree.fault f).Every P ↔ P (.tree (.fault f)) := by
  simp [Tree.Every, Tree.nodes, Tree.nodesAt]

@[simp] theorem Tree.every_paren {id : NodeId} {opener closer : Token} {inner : Tree} :
    (Tree.paren id opener inner closer).Every P ↔
      P (.tree (.paren id opener inner closer)) ∧ inner.Every P := by
  rw [Tree.Every, Tree.nodes, Tree.nodesAt, List.forall_mem_cons, inner.every_at]

@[simp] theorem Tree.every_let_in {id : NodeId} {letToken inToken : Token} {items : List Item}
    {body : Tree} :
    (Tree.letIn id letToken items inToken body).Every P ↔
      P (.tree (.letIn id letToken items inToken body)) ∧
        (∀ item ∈ items, item.Every Node.ofBinding P) ∧ body.Every P := by
  rw [Tree.Every, Tree.nodes, Tree.nodesAt, List.forall_mem_cons, List.forall_mem_append,
    Item.every_list_at, body.every_at]

@[simp] theorem Tree.every_function {id : NodeId} {fnToken arrow : Token} {params : List Param}
    {body : Tree} :
    (Tree.function id fnToken params arrow body).Every P ↔
      P (.tree (.function id fnToken params arrow body)) ∧ body.Every P := by
  rw [Tree.Every, Tree.nodes, Tree.nodesAt, List.forall_mem_cons, body.every_at]

@[simp] theorem Tree.every_record {id : NodeId} {opener closer : Token} {items : List Item} :
    (Tree.record id opener items closer).Every P ↔
      P (.tree (.record id opener items closer)) ∧
        ∀ item ∈ items, item.Every Node.ofField P := by
  rw [Tree.Every, Tree.nodes, Tree.nodesAt, List.forall_mem_cons, Item.every_list_at]

@[simp] theorem Tree.every_unary {id : NodeId} {operator : Token} {operand : Tree} :
    (Tree.unary id operator operand).Every P ↔
      P (.tree (.unary id operator operand)) ∧ operand.Every P := by
  rw [Tree.Every, Tree.nodes, Tree.nodesAt, List.forall_mem_cons, operand.every_at]

@[simp] theorem Tree.every_binary {id : NodeId} {left right : Tree} {operator : Token} :
    (Tree.binary id left operator right).Every P ↔
      P (.tree (.binary id left operator right)) ∧ left.Every P ∧ right.Every P := by
  rw [Tree.Every, Tree.nodes, Tree.nodesAt, List.forall_mem_cons, List.forall_mem_append,
    left.every_at, right.every_at]

@[simp] theorem Tree.every_apply {id : NodeId} {callee argument : Tree} :
    (Tree.apply id callee argument).Every P ↔
      P (.tree (.apply id callee argument)) ∧ callee.Every P ∧ argument.Every P := by
  rw [Tree.Every, Tree.nodes, Tree.nodesAt, List.forall_mem_cons, List.forall_mem_append,
    callee.every_at, argument.every_at]

end Every

/-! ## The identities of nodes -/

/-- The identities of the nodes of a tree. -/
def Tree.ids (tree : Tree) : List NodeId := tree.nodes.map fun entry => entry.2.id

/-- The identities of the nodes of an item. -/
def Item.ids : Item → List NodeId
  | .definition id _ _ value => id :: value.ids
  | .fault f => [f.id]

/-- The identities of nodes do not depend on the depth of the tree. -/
theorem Tree.ids_at (depth : Nat) (tree : Tree) :
    (tree.nodesAt depth).map (fun entry => entry.2.id) = tree.ids := by
  have hmap (entries : List (Nat × Node)) :
      entries.map (fun entry => entry.2.id) = (entries.map Prod.snd).map Node.id := by
    rw [List.map_map]
    rfl
  rw [Tree.ids, Tree.nodes, hmap, hmap, tree.map_nodes_at depth 0]

/-- The identities of the nodes of a list of items at some depth. -/
theorem Item.list_ids_at (toNode : Item → Node) (hid : ∀ item, (toNode item).id = item.id)
    (depth : Nat) (items : List Item) :
    (Item.listNodesAt toNode depth items).map (fun entry => entry.2.id) =
      items.flatMap Item.ids := by
  have hitem (item : Item) :
      (item.nodesAt toNode depth).map (fun entry => entry.2.id) = item.ids := by
    cases item with
    | definition id name equals value =>
        rw [Item.nodesAt, List.map_cons, value.ids_at, hid, Item.ids, Item.id]
    | fault f => rw [Item.nodesAt, List.map_cons, List.map_nil, hid, Item.ids, Item.id]
  induction items with
  | nil => rfl
  | cons item items ih =>
      rw [Item.listNodesAt, List.map_append, hitem, ih, List.flatMap_cons]

section Ids

variable {id : NodeId} {first second : Token} {left right : Tree} {items : List Item}

@[simp] theorem Tree.ids_identifier : (Tree.identifier id first).ids = [id] := rfl

@[simp] theorem Tree.ids_literal {value : Binary64} :
    (Tree.literal id first value).ids = [id] := rfl

@[simp] theorem Tree.ids_placeholder : (Tree.placeholder id first).ids = [id] := rfl

@[simp] theorem Tree.ids_fault {f : Fault} : (Tree.fault f).ids = [f.id] := rfl

@[simp] theorem Tree.ids_paren : (Tree.paren id first left second).ids = id :: left.ids := by
  rw [← left.ids_at 1]
  rfl

@[simp] theorem Tree.ids_let_in :
    (Tree.letIn id first items second left).ids = id :: (items.flatMap Item.ids ++ left.ids) := by
  rw [← left.ids_at 1, ← Item.list_ids_at Node.ofBinding (fun item => by cases item <;> rfl) 1,
    ← List.map_append]
  rfl

@[simp] theorem Tree.ids_function {params : List Param} :
    (Tree.function id first params second left).ids = id :: left.ids := by
  rw [← left.ids_at 1]
  rfl

@[simp] theorem Tree.ids_record :
    (Tree.record id first items second).ids = id :: items.flatMap Item.ids := by
  rw [← Item.list_ids_at Node.ofField (fun item => by cases item <;> rfl) 1]
  rfl

@[simp] theorem Tree.ids_unary : (Tree.unary id first left).ids = id :: left.ids := by
  rw [← left.ids_at 1]
  rfl

@[simp] theorem Tree.ids_binary :
    (Tree.binary id left first right).ids = id :: (left.ids ++ right.ids) := by
  rw [← left.ids_at 1, ← right.ids_at 1, ← List.map_append]
  rfl

@[simp] theorem Tree.ids_apply :
    (Tree.apply id left right).ids = id :: (left.ids ++ right.ids) := by
  rw [← left.ids_at 1, ← right.ids_at 1, ← List.map_append]
  rfl

end Ids

end LetScript
