import LetScript.Proofs.Tree.Shape

/-!
# Heights that are found once

The height of a node is one more than the greatest height of its children (`Node.height_eq`). It can
be asked for again and again at little cost if every height that was found is kept in a table under
the identity of its node. This is right as long as no identity is used for nodes of different
heights (`Node.measure_sound`), whatever trees have been measured before. The height of a tree is
bounded by its nesting, as only what continues an operand makes it taller without nesting
(`Tree.height_le_of_bounded`).
-/

namespace LetScript

/-- An identity and the height of its node. -/
abbrev Mark := NodeId × Nat

namespace Node

/-- The height of a node. -/
def height : Node → Nat
  | tree t => t.height
  | binding _ _ _ value => value.height + 1
  | field _ _ _ value => value.height + 1

/-- The greatest height of some nodes, or 0 if there are none. -/
def tallest : List Node → Nat
  | [] => 0
  | node :: nodes => max node.height (tallest nodes)

@[simp] theorem tallest_singleton (node : Node) : tallest [node] = node.height :=
  Nat.max_zero node.height

/-- No node is higher than the tallest. -/
theorem height_le_tallest {node : Node} {nodes : List Node} (h : node ∈ nodes) :
    node.height ≤ tallest nodes := by
  induction nodes with
  | nil => exact absurd h List.not_mem_nil
  | cons first rest ih =>
      rcases List.mem_cons.1 h with rfl | h
      · exact Nat.le_max_left ..
      · exact Nat.le_trans (ih h) (Nat.le_max_right ..)

/-- The tallest of two lists of nodes together. -/
theorem tallest_append (first second : List Node) :
    tallest (first ++ second) = max (tallest first) (tallest second) := by
  induction first with
  | nil => exact (Nat.zero_max _).symm
  | cons node first ih => rw [List.cons_append, tallest, tallest, ih, Nat.max_assoc]

/-- The tallest item of a list. -/
theorem tallest_items (toNode : Item → Node) (hnode : ∀ item, (toNode item).height = item.height)
    (items : List Item) : tallest (items.map toNode) = Item.listHeight items := by
  induction items with
  | nil => rfl
  | cons item items ih => rw [List.map_cons, tallest, ih, hnode, Item.listHeight]

@[simp] theorem height_of_binding (item : Item) : (ofBinding item).height = item.height := by
  cases item <;> simp only [ofBinding, height, Item.height, Tree.height]

@[simp] theorem height_of_field (item : Item) : (ofField item).height = item.height := by
  cases item <;> simp only [ofField, height, Item.height, Tree.height]

/-- A node is one higher than the tallest of its children. -/
theorem height_eq (node : Node) : node.height = tallest node.children + 1 := by
  cases node with
  | binding | field => simp only [children, tallest_singleton, height]
  | tree tree =>
      cases tree with
      | identifier | literal | placeholder | fault => simp only [children, height, Tree.height]; rfl
      | paren | function | unary => simp only [children, tallest_singleton, height, Tree.height]
      | binary | apply => simp only [children, tallest, height, Tree.height, Nat.max_zero]
      | letIn id letToken items inToken body =>
          simp only [children, tallest_append, tallest_items ofBinding height_of_binding,
            tallest_singleton, height, Tree.height]
      | record id opener items closer =>
          simp only [children, tallest_items ofField height_of_field, height, Tree.height]

/-- A child is lower than its parent. -/
theorem height_lt_of_mem_children {node child : Node} (h : child ∈ node.children) :
    child.height < node.height := by
  rw [node.height_eq]
  exact Nat.lt_succ_of_le (height_le_tallest h)

/-! ## The table of heights -/

/-- The heights that were found, by the identities of the nodes. -/
abbrev HeightTable := Std.HashMap NodeId Nat

/-- Give the height of a node. If it is not in the table, it is found from the heights of the
children, which are asked for in the same way, and written down. -/
def measure (node : Node) (table : HeightTable) : Nat × HeightTable :=
  match table[node.id]? with
  | some height => (height, table)
  | none =>
    let below := node.children.attach.foldl (fun found child =>
      let next := child.1.measure found.2
      (max found.1 next.1, next.2)) (0, table)
    (below.1 + 1, below.2.insert node.id (below.1 + 1))
termination_by node.height
decreasing_by exact height_lt_of_mem_children child.2

/-- The identity and the height of a node and of every node below it. -/
def marks (node : Node) : List Mark :=
  (node.id, node.height) :: node.children.attach.flatMap fun child => child.1.marks
termination_by node.height
decreasing_by exact height_lt_of_mem_children child.2

/-- The marks of a node are its own and those of its children. -/
theorem marks_eq (node : Node) :
    node.marks = (node.id, node.height) :: node.children.flatMap marks := by
  rw [marks]
  simp

/-- The marks of a node are its own and some known ones, if those of its children are known. -/
theorem marks_subset {node : Node} {known : List Mark}
    (h : ∀ child ∈ node.children, child.marks ⊆ known) :
    node.marks ⊆ (node.id, node.height) :: known := by
  rw [marks_eq]
  refine List.cons_subset_cons _ fun mark hmark => ?_
  obtain ⟨child, hchild, hmark⟩ := List.mem_flatMap.1 hmark
  exact h child hchild hmark

/-- A fault has a mark of its own only. -/
theorem marks_fault (f : Fault) : (Node.tree (.fault f)).marks ⊆ [(f.id, 1)] :=
  marks_subset (List.forall_mem_nil _)

/-- Every identity of a node and below it has the height that is given for it. -/
def Fits (heights : NodeId → Nat) (node : Node) : Prop :=
  ∀ mark ∈ node.marks, heights mark.1 = mark.2

theorem fits_iff {heights : NodeId → Nat} {node : Node} :
    node.Fits heights ↔
      heights node.id = node.height ∧ ∀ child ∈ node.children, child.Fits heights := by
  unfold Fits
  rw [marks_eq, List.forall_mem_cons]
  simp only [List.mem_flatMap]
  refine and_congr_right' ⟨fun h child hchild mark hmark => h mark ⟨child, hchild, hmark⟩, ?_⟩
  rintro h mark ⟨child, hchild, hmark⟩
  exact h child hchild mark hmark

/-- A table in which every height is the one that is given for its identity. -/
def HeightTable.Sound (heights : NodeId → Nat) (table : HeightTable) : Prop :=
  ∀ id height, table[id]? = some height → heights id = height

/-- The given height may be written down. -/
theorem HeightTable.Sound.insert {heights : NodeId → Nat} {table : HeightTable}
    (h : table.Sound heights) {id : NodeId} {height : Nat} (hid : heights id = height) :
    HeightTable.Sound heights (table.insert id height) := by
  intro id' height' hget
  rw [Std.HashMap.getElem?_insert] at hget
  split at hget
  next heq =>
    obtain rfl := eq_of_beq heq
    exact hid.trans (Option.some.inj hget)
  next => exact h id' height' hget

/-- Some nodes are measured one after another, if each of them is measured rightly. -/
theorem foldl_measure {heights : NodeId → Nat} {nodes : List Node}
    (h : ∀ node ∈ nodes, ∀ table : HeightTable, table.Sound heights →
      (node.measure table).1 = node.height ∧ (node.measure table).2.Sound heights)
    (found : Nat × HeightTable) (hfound : found.2.Sound heights) :
    (nodes.foldl (fun found node =>
        (max found.1 (node.measure found.2).1, (node.measure found.2).2)) found).1 =
        max found.1 (tallest nodes) ∧
      (nodes.foldl (fun found node =>
        (max found.1 (node.measure found.2).1, (node.measure found.2).2)) found).2.Sound
        heights := by
  induction nodes generalizing found with
  | nil => exact ⟨(Nat.max_zero _).symm, hfound⟩
  | cons node nodes ih =>
      obtain ⟨hnode, hnodes⟩ := List.forall_mem_cons.1 h
      obtain ⟨hheight, hsound⟩ := hnode found.2 hfound
      obtain ⟨htallest, htable⟩ := ih hnodes
        (max found.1 (node.measure found.2).1, (node.measure found.2).2) hsound
      refine ⟨?_, htable⟩
      rw [List.foldl_cons, htallest, hheight, tallest, Nat.max_assoc]

/-- A node is measured rightly with a sound table, which stays sound. -/
theorem measure_sound {heights : NodeId → Nat} (node : Node) (hfits : node.Fits heights)
    (table : HeightTable) (htable : table.Sound heights) :
    (node.measure table).1 = node.height ∧ (node.measure table).2.Sound heights := by
  obtain ⟨hown, hchildren⟩ := fits_iff.1 hfits
  rw [measure]
  cases hget : table[node.id]? with
  | some height => exact ⟨(htable _ _ hget).symm.trans hown, htable⟩
  | none =>
      have hbelow := foldl_measure
        (fun child hchild => child.measure_sound (hchildren child hchild)) (0, table) htable
      rw [← List.foldl_attach] at hbelow
      obtain ⟨htallest, hsound⟩ := hbelow
      rw [Nat.zero_max] at htallest
      show _ + 1 = _ ∧ HeightTable.Sound heights (Std.HashMap.insert _ _ (_ + 1))
      rw [htallest, ← node.height_eq]
      exact ⟨rfl, hsound.insert hown⟩
termination_by node.height
decreasing_by exact height_lt_of_mem_children hchild

/-- The table after some trees were measured one after another, from an empty one on. -/
def tableAfter (trees : List Tree) : HeightTable :=
  trees.foldl (fun table tree => ((Node.tree tree).measure table).2) ∅

/-- Trees that fit the same heights leave a sound table. -/
theorem table_after_sound {heights : NodeId → Nat} {trees : List Tree}
    (h : ∀ tree ∈ trees, (Node.tree tree).Fits heights) : (tableAfter trees).Sound heights := by
  refine List.foldlRecOn trees _ ?_ fun table htable tree htree => ?_
  · intro id height hget
    rw [Std.HashMap.getElem?_empty] at hget
    cases hget
  · exact ((Node.tree tree).measure_sound (h tree htree) table htable).2

end Node

/-! ## Heights and nesting -/

mutual

/-- A tree without tall operators is at most twice as much taller as it is nested: an expression
stands below its parent, or below an item of it. -/
theorem Tree.height_le_of_bounded (tree : Tree) (h : tree.Bounded) :
    tree.height ≤ maxHeight + 2 * tree.nesting := by
  cases tree with
  | identifier | literal | placeholder | fault =>
      simp only [Tree.height, maxHeight]
      omega
  | paren id opener inner closer =>
      have hinner := inner.height_le_of_bounded (Tree.every_paren.1 h).2
      simp only [Tree.height, Tree.nesting]
      omega
  | letIn id letToken items inToken body =>
      obtain ⟨-, hitems, hbody⟩ := Tree.every_let_in.1 h
      have hitems := Item.list_height_le_of_bounded Node.ofBinding items hitems
      have hbody := body.height_le_of_bounded hbody
      simp only [Tree.height, Tree.nesting]
      omega
  | function id fnToken params arrow body =>
      have hbody := body.height_le_of_bounded (Tree.every_function.1 h).2
      simp only [Tree.height, Tree.nesting]
      omega
  | record id opener items closer =>
      have hitems := Item.list_height_le_of_bounded Node.ofField items (Tree.every_record.1 h).2
      simp only [Tree.height, Tree.nesting]
      omega
  | unary id operator operand =>
      have hoperand := operand.height_le_of_bounded (Tree.every_unary.1 h).2
      simp only [Tree.height, Tree.nesting]
      omega
  | binary id left operator right =>
      exact Nat.le_trans (Tree.every_binary.1 h).1 (Nat.le_add_right ..)
  | apply id callee argument =>
      exact Nat.le_trans (Tree.every_apply.1 h).1 (Nat.le_add_right ..)

/-- The items of a list may each be one taller than their values. -/
theorem Item.list_height_le_of_bounded (toNode : Item → Node) (items : List Item)
    (h : ∀ item ∈ items, item.Every toNode Node.Bounded) :
    Item.listHeight items ≤ maxHeight + 2 * Item.listNesting items + 1 := by
  cases items with
  | nil => exact Nat.zero_le _
  | cons item items =>
      obtain ⟨hitem, hitems⟩ := List.forall_mem_cons.1 h
      have hrest := Item.list_height_le_of_bounded toNode items hitems
      have hfirst : item.height ≤ maxHeight + 2 * item.nesting + 1 := by
        cases item with
        | fault f =>
            rw [Item.height]
            omega
        | definition id name equals value =>
            have hvalue := value.height_le_of_bounded hitem.2
            simp only [Item.height, Item.nesting]
            omega
      simp only [Item.listHeight, Item.listNesting]
      omega

end

end LetScript
