import LetScript.Parser.Expression
import LetScript.Proofs.Tree.Nodes
import Mathlib.Data.ENat.Basic
import Mathlib.Order.Lattice.Nat

/-!
# The shape of trees

The operators of a language have powers, and a tree has the shape that the powers prescribe if no
operand could have been split differently. `Tree.head` is the least power on the left edge of a
tree, up to which it may stand as a right operand, and `Tree.tail` the least power on its right
edge, which is still open for the tokens after it. Every operand of a well-shaped tree is tight
enough on the edge where it meets its operator (`Tree.WellShaped`). `Tree.Regular` adds the limits
on nesting and height, with one lemma for each form of a tree.
-/

namespace LetScript

/-- The place of a power in their order, from the loosest to the tightest: `^^`, let, record, `fn`,
sums, products and applications. -/
def Power.rank : Power → Nat
  | lowest => 0
  | doubleCaret => 1
  | letIn => 2
  | record => 3
  | function => 4
  | additive => 5
  | multiplicative => 6
  | apply => 7

/-- The power with which a kind of token continues an expression. Operators have powers of their
own, and the tokens that start an operand start an argument. The other tokens continue nothing. -/
def Kind.power : Kind → Power
  | doubleCaret => .doubleCaret
  | plus | dash => .additive
  | star | slash => .multiplicative
  | identifier | number | fnWord | letWord | openCurly | ellipsis | openParen | invalid => .apply
  | _ => .lowest

/-- The rank of the power with which a token continues an expression. -/
def Token.level (token : Token) : Nat := token.kind.power.rank

/-- The parser compares powers by their ranks. -/
theorem Power.lt_iff_rank {power power' : Power} : power < power' ↔ power.rank < power'.rank := by
  have hlevel (power : Power) : power.level = power.rank := by cases power <;> rfl
  rw [← hlevel, ← hlevel]
  exact Iff.rfl

/-- The parser continues expressions with the powers of tokens. -/
theorem Grammar.standard_power (kind : Kind) : Grammar.standard.power kind = kind.power := by
  cases kind <;> rfl

namespace Tree

/-- The least power of the continuations on the left edge of a tree. -/
@[simp] def head : Tree → WithTop Nat
  | binary _ left operator _ => min operator.level left.head
  | apply _ callee _ => min Power.apply.rank callee.head
  | _ => ⊤

/-- The least power on the right edge of a tree, where it is open to be continued. -/
@[simp] def tail : Tree → WithTop Nat
  | binary _ _ operator right => min operator.level right.tail
  | apply _ _ argument => min Power.apply.rank argument.tail
  | unary _ _ operand => min Power.additive.rank operand.tail
  | function _ _ _ _ body => min Power.function.rank body.tail
  | letIn _ _ _ _ body => min Power.letIn.rank body.tail
  | _ => ⊤

end Tree

namespace Node

/-- The operands of a node are as tight as the power of the node asks for. -/
def WellShaped : Node → Prop
  | tree (.binary _ left operator right) =>
    operator.level ≤ left.tail ∧ operator.level < right.head
  | tree (.apply _ callee argument) =>
    Power.apply.rank ≤ callee.tail ∧ argument.head = ⊤ ∧ argument.kind ≠ .unary
  | tree (.unary _ _ operand) => Power.additive.rank < operand.head
  | tree (.function _ _ _ _ body) => Power.function.rank < body.head
  | tree (.letIn _ _ _ _ body) => Power.letIn.rank < body.head
  | binding _ _ _ value => Power.letIn.rank < value.head
  | field _ _ _ value => Power.record.rank < value.head
  | _ => True

/-- The node is no fault, and neither is one of its parameters. -/
def FaultFree : Node → Prop
  | tree (.fault _) => False
  | tree (.function _ _ params _ _) => ∀ param ∈ params, ∀ f, param ≠ .fault f
  | _ => True

/-- A node that continues an operand is not taller than the parser lets it be. -/
def Bounded : Node → Prop
  | tree (.binary id left operator right) =>
    (Tree.binary id left operator right).height ≤ maxHeight
  | tree (.apply id callee argument) => (Tree.apply id callee argument).height ≤ maxHeight
  | _ => True

end Node

/-- Every node of a tree is well-shaped. -/
def Tree.WellShaped (tree : Tree) : Prop := tree.Every Node.WellShaped

/-- A tree has no fault in it. -/
def Tree.FaultFree (tree : Tree) : Prop := tree.Every Node.FaultFree

/-- No operator or application of a tree is taller than the parser lets it be. -/
def Tree.Bounded (tree : Tree) : Prop := tree.Every Node.Bounded

mutual

/-- The number of expressions of a tree that are nested inside one another. What continues a left
operand does not nest it, and a fault counts for nothing. -/
@[simp] def Tree.nesting : Tree → Nat
  | .identifier _ _ => 1
  | .literal _ _ _ => 1
  | .placeholder _ _ => 1
  | .fault _ => 0
  | .paren _ _ inner _ => inner.nesting + 1
  | .letIn _ _ items _ body => max (Item.listNesting items) body.nesting + 1
  | .function _ _ _ _ body => body.nesting + 1
  | .record _ _ items _ => Item.listNesting items + 1
  | .unary _ _ operand => operand.nesting + 1
  | .binary _ left _ right => max left.nesting (right.nesting + 1)
  | .apply _ callee argument => max callee.nesting (argument.nesting + 1)

/-- The number of expressions of an item that are nested inside one another. -/
@[simp] def Item.nesting : Item → Nat
  | .definition _ _ _ value => value.nesting
  | .fault _ => 0

/-- The greatest nesting of the items of a list. -/
@[simp] def Item.listNesting : List Item → Nat
  | [] => 0
  | item :: items => max item.nesting (Item.listNesting items)

end

/-! ## Trees within the limits -/

/-- A tree is well-shaped and within the limits of the parser, where at most `room` expressions may
be nested inside one another. -/
@[mk_iff] structure Tree.Regular (room : Nat) (tree : Tree) : Prop where
  well_shaped : tree.WellShaped
  bounded : tree.Bounded
  nested : tree.nesting ≤ room

/-- The value of a definition is regular and may stand below a power. -/
def Item.Regular (power : Power) (room : Nat) : Item → Prop
  | .definition _ _ _ value => power.rank < value.head ∧ value.Regular room
  | .fault _ => True

/-- The nesting of a list is bounded by a bound on the nesting of each item. -/
theorem Item.list_nesting_le {room : Nat} {items : List Item} :
    Item.listNesting items ≤ room ↔ ∀ item ∈ items, item.nesting ≤ room := by
  induction items with
  | nil => simp [Item.listNesting]
  | cons item items ih => simp [Item.listNesting, ih]

/-- The items of a list are regular if the nodes of each are, and each is within the limits. -/
theorem Item.list_regular_iff (toNode : Item → Node) {power : Power} {room : Nat}
    {items : List Item}
    (hshape : ∀ id name equals value,
      (toNode (.definition id name equals value)).WellShaped ↔ power.rank < value.head)
    (hbound : ∀ id name equals value, (toNode (.definition id name equals value)).Bounded)
    (hfault : ∀ f, (toNode (.fault f)).WellShaped ∧ (toNode (.fault f)).Bounded) :
    (∀ item ∈ items, item.Every toNode Node.WellShaped) ∧
        (∀ item ∈ items, item.Every toNode Node.Bounded) ∧ Item.listNesting items ≤ room ↔
      ∀ item ∈ items, item.Regular power room := by
  rw [Item.list_nesting_le, ← forall₂_and, ← forall₂_and]
  refine forall₂_congr fun item _ => ?_
  cases item with
  | definition id name equals value =>
      simp only [Item.Every, Item.nesting, Item.Regular, Tree.regular_iff, Tree.WellShaped,
        Tree.Bounded, hshape, hbound, true_and, and_assoc]
  | fault f => simp [Item.Every, Item.nesting, Item.Regular, hfault f]

namespace Tree

variable {room : Nat} {id : NodeId} {first second : Token} {left right : Tree}

/-- A name is regular. -/
theorem regular_identifier : (Tree.identifier id first).Regular (room + 1) :=
  ⟨every_identifier.2 trivial, every_identifier.2 trivial, by simp⟩

/-- A number is regular. -/
theorem regular_literal {value : Binary64} : (Tree.literal id first value).Regular (room + 1) :=
  ⟨every_literal.2 trivial, every_literal.2 trivial, by simp⟩

/-- A placeholder is regular. -/
theorem regular_placeholder : (Tree.placeholder id first).Regular (room + 1) :=
  ⟨every_placeholder.2 trivial, every_placeholder.2 trivial, by simp⟩

/-- A fault is regular, even where no expression may be nested. -/
theorem regular_fault {f : Fault} : (Tree.fault f).Regular room :=
  ⟨every_fault.2 trivial, every_fault.2 trivial, by simp⟩

/-- Parentheses are regular around a regular expression. -/
theorem regular_paren :
    (Tree.paren id first left second).Regular (room + 1) ↔ left.Regular room := by
  rw [regular_iff, regular_iff]
  exact and_congr (every_paren.trans (and_iff_right trivial))
    (and_congr (every_paren.trans (and_iff_right trivial)) (by simp))

/-- A function is regular if its body is and may stand below the power of functions. -/
theorem regular_function {params : List Param} :
    (Tree.function id first params second left).Regular (room + 1) ↔
      Power.function.rank < left.head ∧ left.Regular room := by
  have hshaped : (Tree.function id first params second left).WellShaped ↔
      Power.function.rank < left.head ∧ left.WellShaped := every_function
  have hbounded : (Tree.function id first params second left).Bounded ↔ left.Bounded :=
    every_function.trans (and_iff_right trivial)
  rw [regular_iff, regular_iff, hshaped, hbounded, nesting, Nat.add_le_add_iff_right, and_assoc]

/-- A sign is regular if its operand is and may stand below the power of sums. -/
theorem regular_unary :
    (Tree.unary id first left).Regular (room + 1) ↔
      Power.additive.rank < left.head ∧ left.Regular room := by
  have hshaped : (Tree.unary id first left).WellShaped ↔
      Power.additive.rank < left.head ∧ left.WellShaped := every_unary
  have hbounded : (Tree.unary id first left).Bounded ↔ left.Bounded :=
    every_unary.trans (and_iff_right trivial)
  rw [regular_iff, regular_iff, hshaped, hbounded, nesting, Nat.add_le_add_iff_right, and_assoc]

/-- A let is regular if its definitions and its body are. -/
theorem regular_let_in {items : List Item} :
    (Tree.letIn id first items second left).Regular (room + 1) ↔
      (∀ item ∈ items, item.Regular .letIn room) ∧ Power.letIn.rank < left.head ∧
        left.Regular room := by
  have hshaped : (Tree.letIn id first items second left).WellShaped ↔
      Power.letIn.rank < left.head ∧ (∀ item ∈ items, item.Every Node.ofBinding Node.WellShaped) ∧
        left.WellShaped := every_let_in
  have hbounded : (Tree.letIn id first items second left).Bounded ↔
      (∀ item ∈ items, item.Every Node.ofBinding Node.Bounded) ∧ left.Bounded :=
    every_let_in.trans (and_iff_right trivial)
  rw [← Item.list_regular_iff Node.ofBinding (fun _ _ _ _ => Iff.rfl) (fun _ _ _ _ => trivial)
    (fun _ => ⟨trivial, trivial⟩), regular_iff, regular_iff, hshaped, hbounded, nesting,
    Nat.add_le_add_iff_right, Nat.max_le]
  tauto

/-- A record is regular if its fields are. -/
theorem regular_record {items : List Item} :
    (Tree.record id first items second).Regular (room + 1) ↔
      ∀ item ∈ items, item.Regular .record room := by
  rw [← Item.list_regular_iff Node.ofField (fun _ _ _ _ => Iff.rfl) (fun _ _ _ _ => trivial)
    (fun _ => ⟨trivial, trivial⟩), regular_iff]
  exact and_congr (every_record.trans (and_iff_right trivial))
    (and_congr (every_record.trans (and_iff_right trivial)) (by simp))

/-- An operator is regular if its operands are and the operator cannot split them. -/
theorem regular_binary :
    (Tree.binary id left first right).Regular (room + 1) ↔
      (first.level ≤ left.tail ∧ first.level < right.head) ∧
        (Tree.binary id left first right).height ≤ maxHeight ∧ left.Regular (room + 1) ∧
          right.Regular room := by
  have hshaped : (Tree.binary id left first right).WellShaped ↔
      (first.level ≤ left.tail ∧ first.level < right.head) ∧ left.WellShaped ∧ right.WellShaped :=
    every_binary
  have hbounded : (Tree.binary id left first right).Bounded ↔
      (Tree.binary id left first right).height ≤ maxHeight ∧ left.Bounded ∧ right.Bounded :=
    every_binary
  rw [regular_iff, regular_iff, regular_iff, hshaped, hbounded, nesting, Nat.max_le,
    Nat.add_le_add_iff_right]
  tauto

/-- An application is regular if its parts are and the argument is not continued. -/
theorem regular_apply :
    (Tree.apply id left right).Regular (room + 1) ↔
      (Power.apply.rank ≤ left.tail ∧ right.head = ⊤ ∧ right.kind ≠ .unary) ∧
        (Tree.apply id left right).height ≤ maxHeight ∧ left.Regular (room + 1) ∧
          right.Regular room := by
  have hshaped : (Tree.apply id left right).WellShaped ↔
      (Power.apply.rank ≤ left.tail ∧ right.head = ⊤ ∧ right.kind ≠ .unary) ∧ left.WellShaped ∧
        right.WellShaped := every_apply
  have hbounded : (Tree.apply id left right).Bounded ↔
      (Tree.apply id left right).height ≤ maxHeight ∧ left.Bounded ∧ right.Bounded := every_apply
  rw [regular_iff, regular_iff, regular_iff, hshaped, hbounded, nesting, Nat.max_le,
    Nat.add_le_add_iff_right]
  tauto

end Tree

/-! ## Trees without faults -/

/-- An item is no fault and has none in it. -/
def Item.FaultFree : Item → Prop
  | .definition _ _ _ value => value.FaultFree
  | .fault _ => False

/-- The nodes of an item are no faults if the item is none and has none in it. -/
theorem Item.every_fault_free (toNode : Item → Node)
    (hnode : ∀ id name equals value, (toNode (.definition id name equals value)).FaultFree)
    (hfault : ∀ f, ¬ (toNode (.fault f)).FaultFree) (item : Item) :
    item.Every toNode Node.FaultFree ↔ item.FaultFree := by
  cases item with
  | definition id name equals value =>
      simp only [Item.Every, Item.FaultFree, Tree.FaultFree, hnode, true_and]
  | fault f => simp only [Item.Every, Item.FaultFree, hfault]

namespace Tree

variable {id : NodeId} {first second : Token} {left right : Tree}

@[simp] theorem fault_free_identifier : (Tree.identifier id first).FaultFree :=
  every_identifier.2 trivial

@[simp] theorem fault_free_literal {value : Binary64} :
    (Tree.literal id first value).FaultFree :=
  every_literal.2 trivial

@[simp] theorem fault_free_placeholder : (Tree.placeholder id first).FaultFree :=
  every_placeholder.2 trivial

@[simp] theorem not_fault_free_fault {f : Fault} : ¬ (Tree.fault f).FaultFree :=
  fun h => every_fault.1 h

@[simp] theorem fault_free_paren :
    (Tree.paren id first left second).FaultFree ↔ left.FaultFree :=
  every_paren.trans (and_iff_right trivial)

@[simp] theorem fault_free_let_in {items : List Item} :
    (Tree.letIn id first items second left).FaultFree ↔
      (∀ item ∈ items, item.FaultFree) ∧ left.FaultFree := by
  refine (every_let_in.trans (and_iff_right trivial)).trans (and_congr_left' ?_)
  exact forall₂_congr fun item _ =>
    item.every_fault_free Node.ofBinding (fun _ _ _ _ => trivial) fun _ => not_false

@[simp] theorem fault_free_function {params : List Param} :
    (Tree.function id first params second left).FaultFree ↔
      (∀ param ∈ params, ∀ f, param ≠ .fault f) ∧ left.FaultFree :=
  every_function

@[simp] theorem fault_free_record {items : List Item} :
    (Tree.record id first items second).FaultFree ↔ ∀ item ∈ items, item.FaultFree := by
  refine (every_record.trans (and_iff_right trivial)).trans ?_
  exact forall₂_congr fun item _ =>
    item.every_fault_free Node.ofField (fun _ _ _ _ => trivial) fun _ => not_false

@[simp] theorem fault_free_unary : (Tree.unary id first left).FaultFree ↔ left.FaultFree :=
  every_unary.trans (and_iff_right trivial)

@[simp] theorem fault_free_binary :
    (Tree.binary id left first right).FaultFree ↔ left.FaultFree ∧ right.FaultFree :=
  every_binary.trans (and_iff_right trivial)

@[simp] theorem fault_free_apply :
    (Tree.apply id left right).FaultFree ↔ left.FaultFree ∧ right.FaultFree :=
  every_apply.trans (and_iff_right trivial)

end Tree

/-- A tree without faults is an expression itself. -/
theorem Tree.nesting_pos {tree : Tree} (h : tree.FaultFree) : 0 < tree.nesting := by
  cases tree with
  | fault => exact absurd h not_fault_free_fault
  | identifier | literal | placeholder | paren | letIn | function | record | unary | binary
  | apply => simp

/-! ## Trees up to identities -/

/-- A fault whose identity is forgotten. -/
def Fault.withoutId (fault : Fault) : Fault := { fault with id := 0 }

/-- A parameter whose identity is forgotten. -/
def Param.withoutId : Param → Param
  | name _ token => name 0 token
  | fault f => fault f.withoutId

mutual

/-- A tree whose identities are forgotten. -/
@[simp] def Tree.withoutIds : Tree → Tree
  | .identifier _ token => .identifier 0 token
  | .literal _ token value => .literal 0 token value
  | .placeholder _ token => .placeholder 0 token
  | .fault f => .fault f.withoutId
  | .paren _ opener inner closer => .paren 0 opener inner.withoutIds closer
  | .letIn _ letToken items inToken body =>
    .letIn 0 letToken (Item.listWithoutIds items) inToken body.withoutIds
  | .function _ fnToken params arrow body =>
    .function 0 fnToken (params.map Param.withoutId) arrow body.withoutIds
  | .record _ opener items closer => .record 0 opener (Item.listWithoutIds items) closer
  | .unary _ operator operand => .unary 0 operator operand.withoutIds
  | .binary _ left operator right => .binary 0 left.withoutIds operator right.withoutIds
  | .apply _ callee argument => .apply 0 callee.withoutIds argument.withoutIds

/-- An item whose identities are forgotten. -/
@[simp] def Item.withoutIds : Item → Item
  | .definition _ name equals value => .definition 0 name equals value.withoutIds
  | .fault f => .fault f.withoutId

/-- A list of items whose identities are forgotten. -/
@[simp] def Item.listWithoutIds : List Item → List Item
  | [] => []
  | item :: items => item.withoutIds :: Item.listWithoutIds items

end

/-- Two trees differ in the identities of their nodes only. -/
def Tree.SameShape (tree tree' : Tree) : Prop := tree.withoutIds = tree'.withoutIds

mutual

/-- Forgetting identities does not change the height of a tree. -/
theorem Tree.height_without_ids (tree : Tree) : tree.withoutIds.height = tree.height := by
  cases tree with
  | identifier | literal | placeholder | fault => rfl
  | paren _ _ inner _ => simp only [Tree.withoutIds, Tree.height, inner.height_without_ids]
  | letIn _ _ items _ body =>
      simp only [Tree.withoutIds, Tree.height, Item.list_height_without_ids items,
        body.height_without_ids]
  | function _ _ _ _ body => simp only [Tree.withoutIds, Tree.height, body.height_without_ids]
  | record _ _ items _ =>
      simp only [Tree.withoutIds, Tree.height, Item.list_height_without_ids items]
  | unary _ _ operand => simp only [Tree.withoutIds, Tree.height, operand.height_without_ids]
  | binary _ left _ right =>
      simp only [Tree.withoutIds, Tree.height, left.height_without_ids, right.height_without_ids]
  | apply _ callee argument =>
      simp only [Tree.withoutIds, Tree.height, callee.height_without_ids,
        argument.height_without_ids]

/-- Forgetting identities does not change the height of an item. -/
theorem Item.height_without_ids (item : Item) : item.withoutIds.height = item.height := by
  cases item with
  | definition _ _ _ value => simp only [Item.withoutIds, Item.height, value.height_without_ids]
  | fault => rfl

/-- Forgetting identities does not change the height of a list of items. -/
theorem Item.list_height_without_ids (items : List Item) :
    Item.listHeight (Item.listWithoutIds items) = Item.listHeight items := by
  cases items with
  | nil => rfl
  | cons item items =>
      simp only [Item.listWithoutIds, Item.listHeight, item.height_without_ids,
        Item.list_height_without_ids items]

end

/-- Forgetting its identity does not make a parameter a fault. -/
theorem Param.fault_without_id (param : Param) :
    (∀ f, param.withoutId ≠ .fault f) ↔ ∀ f, param ≠ .fault f := by
  cases param with
  | name => simp [Param.withoutId]
  | fault => simp [Param.withoutId]

mutual

/-- Forgetting identities makes no faults. -/
theorem Tree.fault_free_without_ids (tree : Tree) :
    tree.withoutIds.FaultFree ↔ tree.FaultFree := by
  cases tree with
  | identifier | literal | placeholder | fault => simp
  | paren _ _ inner _ => simp [inner.fault_free_without_ids]
  | letIn _ _ items _ body =>
      simp [Item.list_fault_free_without_ids items, body.fault_free_without_ids]
  | function _ _ _ _ body => simp [Param.fault_without_id, body.fault_free_without_ids]
  | record _ _ items _ => simp [Item.list_fault_free_without_ids items]
  | unary _ _ operand => simp [operand.fault_free_without_ids]
  | binary _ left _ right => simp [left.fault_free_without_ids, right.fault_free_without_ids]
  | apply _ callee argument =>
      simp [callee.fault_free_without_ids, argument.fault_free_without_ids]

/-- Forgetting identities makes no faults in an item. -/
theorem Item.fault_free_without_ids (item : Item) :
    item.withoutIds.FaultFree ↔ item.FaultFree := by
  cases item with
  | definition _ _ _ value => exact value.fault_free_without_ids
  | fault => exact Iff.rfl

/-- Forgetting identities makes no faults in a list of items. -/
theorem Item.list_fault_free_without_ids (items : List Item) :
    (∀ item ∈ Item.listWithoutIds items, item.FaultFree) ↔ ∀ item ∈ items, item.FaultFree := by
  cases items with
  | nil => simp
  | cons item items =>
      simp only [Item.listWithoutIds, List.forall_mem_cons, item.fault_free_without_ids,
        Item.list_fault_free_without_ids items]

end

namespace Tree.SameShape

variable {tree tree' : Tree}

/-- Trees of the same shape have the same height. -/
theorem height_eq (h : tree.SameShape tree') : tree.height = tree'.height := by
  rw [← tree.height_without_ids, h, tree'.height_without_ids]

/-- Trees of the same shape have faults in the same places. -/
theorem fault_free_iff (h : tree.SameShape tree') : tree.FaultFree ↔ tree'.FaultFree := by
  rw [← tree.fault_free_without_ids, h, tree'.fault_free_without_ids]

end Tree.SameShape

end LetScript
