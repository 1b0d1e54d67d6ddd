import LetScript.Proofs.Parser.Identities

/-!
# Identities grow from the leaves to the root

The postorder of a node lists the identities of its parameters, then those of the nodes below it,
child by child, and its own identity last (`Node.postorder_eq`). The postorder of every node of a
tree is a stretch of the postorder of the tree (`Tree.every_postorder_inside`), so what the parser
guarantees for the whole tree holds at each of its nodes: in a parsed tree a node has a greater
identity than everything below it, and the root has the greatest (`Tree.parse_ids_increase`).
-/

namespace LetScript

/-! ## Properties that go down a tree -/

section Inherited

variable {P : Node → Prop} (hchild : ∀ node child, P node → child ∈ node.children → P child)

include hchild

mutual

/-- A property that goes from a node to its children holds of all nodes, if it holds of the
root. -/
theorem Tree.every_of_inherited (tree : Tree) (h : P (.tree tree)) : tree.Every P := by
  cases tree with
  | identifier => exact Tree.every_identifier.2 h
  | literal => exact Tree.every_literal.2 h
  | placeholder => exact Tree.every_placeholder.2 h
  | fault => exact Tree.every_fault.2 h
  | paren id opener inner closer =>
      have hinner : P (.tree inner) := hchild _ _ h (List.mem_singleton.2 rfl)
      exact Tree.every_paren.2 ⟨h, inner.every_of_inherited hinner⟩
  | letIn id letToken items inToken body =>
      have hbody : P (.tree body) :=
        hchild _ _ h (List.mem_append_right _ (List.mem_singleton.2 rfl))
      refine Tree.every_let_in.2 ⟨h, ?_, body.every_of_inherited hbody⟩
      refine Item.every_of_inherited Node.ofBinding (fun _ _ _ _ => rfl) items fun item hitem => ?_
      exact hchild _ _ h (List.mem_append_left _ (List.mem_map_of_mem hitem))
  | function id fnToken params arrow body =>
      have hbody : P (.tree body) := hchild _ _ h (List.mem_singleton.2 rfl)
      exact Tree.every_function.2 ⟨h, body.every_of_inherited hbody⟩
  | record id opener items closer =>
      refine Tree.every_record.2 ⟨h, ?_⟩
      refine Item.every_of_inherited Node.ofField (fun _ _ _ _ => rfl) items fun item hitem => ?_
      exact hchild _ _ h (List.mem_map_of_mem hitem)
  | unary id operator operand =>
      have hoperand : P (.tree operand) := hchild _ _ h (List.mem_singleton.2 rfl)
      exact Tree.every_unary.2 ⟨h, operand.every_of_inherited hoperand⟩
  | binary id left operator right =>
      have hleft : P (.tree left) := hchild _ _ h (List.mem_cons_self ..)
      have hright : P (.tree right) :=
        hchild _ _ h (List.mem_cons_of_mem _ (List.mem_singleton.2 rfl))
      exact Tree.every_binary.2
        ⟨h, left.every_of_inherited hleft, right.every_of_inherited hright⟩
  | apply id callee argument =>
      have hcallee : P (.tree callee) := hchild _ _ h (List.mem_cons_self ..)
      have hargument : P (.tree argument) :=
        hchild _ _ h (List.mem_cons_of_mem _ (List.mem_singleton.2 rfl))
      exact Tree.every_apply.2
        ⟨h, callee.every_of_inherited hcallee, argument.every_of_inherited hargument⟩

/-- A property that goes from a node to its children holds of all nodes of the items of a list, if
it holds of the nodes of the items. -/
theorem Item.every_of_inherited (toNode : Item → Node)
    (hchildren : ∀ id name equals value,
      (toNode (.definition id name equals value)).children = [.tree value])
    (items : List Item) (h : ∀ item ∈ items, P (toNode item)) :
    ∀ item ∈ items, item.Every toNode P := by
  cases items with
  | nil => exact fun _ hmem => absurd hmem List.not_mem_nil
  | cons item items =>
      obtain ⟨hitem, hitems⟩ := List.forall_mem_cons.1 h
      refine List.forall_mem_cons.2 ⟨?_, Item.every_of_inherited toNode hchildren items hitems⟩
      cases item with
      | fault f => exact hitem
      | definition id name equals value =>
          have hvalue : P (.tree value) :=
            hchild _ _ hitem (hchildren id name equals value ▸ List.mem_singleton.2 rfl)
          exact ⟨hitem, value.every_of_inherited hvalue⟩

end

end Inherited

/-! ## The postorder of a node -/

/-- The identities of a node and of all that is below it. -/
def Node.postorder : Node → List NodeId
  | tree t => t.postorder
  | binding id _ _ value => value.postorder ++ [id]
  | field id _ _ value => value.postorder ++ [id]

/-- The identities of a list of items are those of their nodes. -/
theorem Item.list_postorder_nodes (toNode : Item → Node)
    (hitem : ∀ item, (toNode item).postorder = item.postorder) (items : List Item) :
    Item.listPostorder items = (items.map toNode).flatMap Node.postorder := by
  simp only [Item.list_postorder_eq, List.flatMap_map, hitem]

/-- The parameters of a node come first in its postorder, then what is below it, child by child, and
the node itself comes last. -/
theorem Node.postorder_eq (node : Node) :
    node.postorder = node.paramIds ++ node.children.flatMap Node.postorder ++ [node.id] := by
  cases node with
  | binding | field =>
      simp only [Node.postorder, Node.paramIds, Node.children, Node.id, List.flatMap_singleton,
        List.nil_append]
  | tree tree =>
      cases tree with
      | identifier | literal | placeholder | fault => rfl
      | paren | unary =>
          simp only [Node.postorder, Tree.postorder, Node.paramIds, Node.children, Node.id, Tree.id,
            List.flatMap_singleton, List.nil_append]
      | function =>
          simp only [Node.postorder, Tree.postorder, Node.paramIds, Node.children, Node.id, Tree.id,
            List.flatMap_singleton]
      | binary | apply =>
          simp only [Node.postorder, Tree.postorder, Node.paramIds, Node.children, Node.id, Tree.id,
            List.flatMap_cons, List.flatMap_nil, List.append_nil, List.nil_append]
      | letIn id letToken items inToken body =>
          have hitems := Item.list_postorder_nodes Node.ofBinding
            (fun item => by cases item <;> rfl) items
          simp only [Node.postorder, Tree.postorder, Node.paramIds, Node.children, Node.id, Tree.id,
            List.flatMap_append, List.flatMap_singleton, List.nil_append, hitems]
      | record id opener items closer =>
          have hitems := Item.list_postorder_nodes Node.ofField
            (fun item => by cases item <;> rfl) items
          simp only [Node.postorder, Tree.postorder, Node.paramIds, Node.children, Node.id, Tree.id,
            List.nil_append, hitems]

/-- The postorder of a child is a stretch of the postorder of its parent. -/
theorem Node.postorder_inside_of_mem_children {node child : Node} (h : child ∈ node.children) :
    child.postorder <:+: node.postorder := by
  obtain ⟨before, after, hchildren⟩ := List.append_of_mem h
  refine ⟨node.paramIds ++ before.flatMap Node.postorder,
    after.flatMap Node.postorder ++ [node.id], ?_⟩
  rw [node.postorder_eq, hchildren]
  simp only [List.flatMap_append, List.flatMap_cons, List.append_assoc]

/-- The postorder of every node of a tree is a stretch of the postorder of the tree. -/
theorem Tree.every_postorder_inside (tree : Tree) :
    tree.Every fun node => node.postorder <:+: tree.postorder := by
  refine Tree.every_of_inherited (fun node child hnode hchild => ?_) tree (List.infix_refl _)
  exact (Node.postorder_inside_of_mem_children hchild).trans hnode

/-! ## Parsed trees -/

/-- The identities of a parsed tree, those of parameters included, are pairwise distinct and
increase in postorder. So every node has a greater identity than all that is below it, and the root
has the greatest one. -/
theorem Tree.parse_ids_increase (tokens : Array Token) :
    (Tree.parse tokens).postorder.Nodup ∧ (Tree.parse tokens).postorder.Pairwise (· < ·) ∧
      ((Tree.parse tokens).Every fun node =>
        node.postorder = node.paramIds ++ node.children.flatMap Node.postorder ++ [node.id] ∧
          ∀ id ∈ node.paramIds ++ node.children.flatMap Node.postorder, id < node.id) ∧
      ∀ id ∈ (Tree.parse tokens).postorder, id ≤ (Tree.parse tokens).id := by
  have hincreasing : (Tree.parse tokens).postorder.Pairwise (· < ·) :=
    Tree.parse_with_postorder .standard _
  -- what is true of the whole postorder is true of the stretch that belongs to a node
  have hbelow {node : Node} (h : node.postorder <:+: (Tree.parse tokens).postorder) :
      ∀ id ∈ node.paramIds ++ node.children.flatMap Node.postorder, id < node.id := by
    have hnode := hincreasing.sublist h.sublist
    rw [node.postorder_eq] at hnode
    intro id hid
    exact (List.pairwise_append.1 hnode).2.2 id hid node.id (List.mem_singleton.2 rfl)
  refine ⟨hincreasing.imp Nat.ne_of_lt, hincreasing, ?_, ?_⟩
  · intro entry hentry
    exact ⟨entry.2.postorder_eq, hbelow ((Tree.parse tokens).every_postorder_inside entry hentry)⟩
  · intro id hid
    have hroot : id ∈ (Node.tree (Tree.parse tokens)).postorder := hid
    rw [Node.postorder_eq] at hroot
    rcases List.mem_append.1 hroot with hid | hid
    · exact Nat.le_of_lt (hbelow (List.infix_refl _) id hid)
    · exact Nat.le_of_eq (List.mem_singleton.1 hid)

end LetScript
