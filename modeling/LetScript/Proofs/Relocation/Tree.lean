import LetScript.Parser.Expression
import LetScript.Proofs.Token.Window
import LetScript.Tree.Node

/-!
# Trees with other positions

Relocating a tree changes its positions, in spans and in diagnostics, by a function, and drops the
blank tokens among those that its faults have skipped. Nothing else of the tree changes. With the
identity this says when trees are equal up to blank tokens, and with a function that forgets how
wide blank tokens are it compares the trees of different sources.
-/

namespace LetScript

variable (f : Position → Position)

/-- A span between other positions. -/
def Span.relocate (span : Span) : Span := ⟨f span.start, f span.stop⟩

/-- A diagnostic at another position. -/
def Diagnostic.relocate (diagnostic : Diagnostic) : Diagnostic :=
  { diagnostic with position := f diagnostic.position }

/-- A token at another place. -/
def Token.relocate (token : Token) : Token :=
  { token with
    span := token.span.relocate f
    diagnostic := token.diagnostic.map (Diagnostic.relocate f) }

/-- The significant tokens of a list at other places. -/
def Token.relocateAll (tokens : List Token) : List Token :=
  (Token.significant tokens).map (Token.relocate f)

/-- A fault with other positions and without blank tokens. -/
def Fault.relocate (fault : Fault) : Fault where
  id := fault.id
  diagnostic := fault.diagnostic.relocate f
  token := fault.token.relocate f
  skipped := Token.relocateAll f fault.skipped

/-- A parameter with other positions. -/
def Param.relocate : Param → Param
  | .name id token => .name id (token.relocate f)
  | .fault x => .fault (x.relocate f)

mutual

/-- A tree with other positions. -/
def Tree.relocate : Tree → Tree
  | .identifier id token => .identifier id (token.relocate f)
  | .literal id token value => .literal id (token.relocate f) value
  | .placeholder id token => .placeholder id (token.relocate f)
  | .fault fault => .fault (fault.relocate f)
  | .paren id opener inner closer =>
    .paren id (opener.relocate f) inner.relocate (closer.relocate f)
  | .letIn id letToken items inToken body =>
    .letIn id (letToken.relocate f) (Item.relocateList items) (inToken.relocate f) body.relocate
  | .function id fnToken params arrow body =>
    .function id (fnToken.relocate f) (params.map (Param.relocate f)) (arrow.relocate f)
      body.relocate
  | .record id opener items closer =>
    .record id (opener.relocate f) (Item.relocateList items) (closer.relocate f)
  | .unary id operator operand => .unary id (operator.relocate f) operand.relocate
  | .binary id left operator right =>
    .binary id left.relocate (operator.relocate f) right.relocate
  | .apply id callee argument => .apply id callee.relocate argument.relocate

/-- An item with other positions. -/
def Item.relocate : Item → Item
  | .definition id name equals value =>
    .definition id (name.relocate f) (equals.relocate f) value.relocate
  | .fault fault => .fault (fault.relocate f)

/-- Items with other positions. -/
def Item.relocateList : List Item → List Item
  | [] => []
  | item :: items => item.relocate :: Item.relocateList items

end

/-- What continues an expression, with other positions. -/
def Continuation.relocate : Continuation → Continuation
  | binary id operator right => binary id (operator.relocate f) (right.relocate f)
  | apply id argument => apply id (argument.relocate f)

/-- A node with other positions. -/
def Node.relocate : Node → Node
  | tree t => tree (t.relocate f)
  | binding id name equals value =>
    binding id (name.relocate f) (equals.relocate f) (value.relocate f)
  | field id name equals value =>
    field id (name.relocate f) (equals.relocate f) (value.relocate f)

variable {f}

/-! ## What does not change -/

@[simp] theorem Token.kind_relocate (token : Token) : (token.relocate f).kind = token.kind := rfl

@[simp] theorem Token.value_relocate (token : Token) : (token.relocate f).value = token.value := rfl

/-- The items of a list are relocated one by one. -/
theorem Item.relocate_list_eq (items : List Item) :
    Item.relocateList f items = items.map (Item.relocate f) := by
  induction items with
  | nil => rfl
  | cons item items ih => rw [Item.relocateList, ih, List.map_cons]

/-- The names that parameters declare do not change. -/
theorem Param.declared_relocate (params : List Param) :
    (params.map (Param.relocate f)).filterMap Param.declared? =
      params.filterMap Param.declared? := by
  have hparam : Param.declared? ∘ Param.relocate f = Param.declared? := by
    funext param
    cases param <;> rfl
  rw [List.filterMap_map, hparam]

/-- The names that items declare do not change. -/
theorem Item.declared_relocate (items : List Item) :
    (Item.relocateList f items).filterMap Item.declared? = items.filterMap Item.declared? := by
  have hitem : Item.declared? ∘ Item.relocate f = Item.declared? := by
    funext item
    cases item <;> rfl
  rw [Item.relocate_list_eq, List.filterMap_map, hitem]

/-- The faults among parameters are relocated with them. -/
theorem Param.faults_relocate (params : List Param) :
    (params.map (Param.relocate f)).filterMap Param.fault? =
      (params.filterMap Param.fault?).map (Fault.relocate f) := by
  have hparam : Param.fault? ∘ Param.relocate f =
      fun param => param.fault?.map (Fault.relocate f) := by
    funext param
    cases param <;> rfl
  rw [List.filterMap_map, List.map_filterMap, hparam]

/-- The faults among items are relocated with them. -/
theorem Item.faults_relocate (items : List Item) :
    (Item.relocateList f items).filterMap Item.fault? =
      (items.filterMap Item.fault?).map (Fault.relocate f) := by
  have hitem : Item.fault? ∘ Item.relocate f =
      fun item => item.fault?.map (Fault.relocate f) := by
    funext item
    cases item <;> rfl
  rw [Item.relocate_list_eq, List.filterMap_map, List.map_filterMap, hitem]

mutual

/-- The height of a tree does not change. -/
theorem Tree.height_relocate (tree : Tree) : (tree.relocate f).height = tree.height := by
  cases tree with
  | identifier | literal | placeholder | fault => rfl
  | paren id opener inner closer => simp only [Tree.relocate, Tree.height, inner.height_relocate]
  | letIn id letToken items inToken body =>
      simp only [Tree.relocate, Tree.height, Item.height_relocate_list items, body.height_relocate]
  | function id fnToken params arrow body =>
      simp only [Tree.relocate, Tree.height, body.height_relocate]
  | record id opener items closer =>
      simp only [Tree.relocate, Tree.height, Item.height_relocate_list items]
  | unary id operator operand => simp only [Tree.relocate, Tree.height, operand.height_relocate]
  | binary id left operator right =>
      simp only [Tree.relocate, Tree.height, left.height_relocate, right.height_relocate]
  | apply id callee argument =>
      simp only [Tree.relocate, Tree.height, callee.height_relocate, argument.height_relocate]

/-- The greatest height of some items does not change. -/
theorem Item.height_relocate_list (items : List Item) :
    Item.listHeight (Item.relocateList f items) = Item.listHeight items := by
  cases items with
  | nil => rfl
  | cons item items =>
      have hitem : (item.relocate f).height = item.height := by
        cases item with
        | definition id name equals value =>
            simp only [Item.relocate, Item.height, value.height_relocate]
        | fault f => rfl
      simp only [Item.relocateList, Item.listHeight, hitem, Item.height_relocate_list items]

end

/-- The height of a continuation does not change. -/
theorem Continuation.height_relocate (continuation : Continuation) :
    (continuation.relocate f).height = continuation.height := by
  cases continuation with
  | binary id operator right => exact right.height_relocate
  | apply id argument => exact argument.height_relocate

/-- A continuation is relocated with what it continues. -/
theorem Continuation.attach_relocate (left : Tree) (continuation : Continuation) :
    (continuation.relocate f).attach (left.relocate f) = (continuation.attach left).relocate f := by
  cases continuation <;> rfl

/-! ## Nodes -/

/-- The node of an item of a let is relocated with the item. -/
theorem Node.of_binding_relocate (item : Item) :
    Node.ofBinding (item.relocate f) = (Node.ofBinding item).relocate f := by
  cases item <;> rfl

/-- The node of an item of a record is relocated with the item. -/
theorem Node.of_field_relocate (item : Item) :
    Node.ofField (item.relocate f) = (Node.ofField item).relocate f := by
  cases item <;> rfl

/-- The identity of a node does not change. -/
theorem Node.id_relocate (node : Node) : (node.relocate f).id = node.id := by
  cases node with
  | tree tree => cases tree <;> rfl
  | binding id name equals value => rfl
  | field id name equals value => rfl

end LetScript
