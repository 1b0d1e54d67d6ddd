import LetScript.Tree.Basic

/-!
# Nodes

A node is a tree or an item of a let or record in one. `Node.children` gives the nodes directly
below a node, in source order, and `Tree.nodes` all nodes of a tree with their depths, each before
those below it. Parameters of functions are not nodes in this sense. `Tree.walk` goes through the
nodes of a tree, and `Tree.outline` writes one line for each node, indented by its depth.
-/

namespace LetScript

/-- A tree, or a definition in a let or a record. -/
inductive Node where
  | tree (tree : Tree)
  | binding (id : NodeId) (name equals : Token) (value : Tree)
  | field (id : NodeId) (name equals : Token) (value : Tree)

/-- The kinds of nodes, parameters included. -/
inductive NodeKind where
  | identifier
  | literal
  | paren
  | letIn
  | binding
  | function
  | param
  | record
  | field
  | placeholder
  | binary
  | unary
  | apply
  | fault
  deriving DecidableEq

/-- The name of a kind of node. -/
def NodeKind.name : NodeKind → String
  | identifier => "Identifier"
  | literal => "Literal"
  | paren => "Paren"
  | letIn => "Let"
  | binding => "LetBinding"
  | function => "Fn"
  | param => "FnParam"
  | record => "Record"
  | field => "RecordField"
  | placeholder => "NotImplemented"
  | binary => "Binary"
  | unary => "Unary"
  | apply => "Apply"
  | fault => "SyntaxError"

/-- The kind of the root of a tree. -/
def Tree.kind : Tree → NodeKind
  | identifier _ _ => .identifier
  | literal _ _ _ => .literal
  | placeholder _ _ => .placeholder
  | fault _ => .fault
  | paren _ _ _ _ => .paren
  | letIn _ _ _ _ _ => .letIn
  | function _ _ _ _ _ => .function
  | record _ _ _ _ => .record
  | unary _ _ _ => .unary
  | binary _ _ _ _ => .binary
  | apply _ _ _ => .apply

/-- A fault by its kind and message. -/
def Fault.title (fault : Fault) : String :=
  NodeKind.fault.name ++ ": " ++ fault.diagnostic.message

namespace Param

/-- The kind of a parameter. -/
def kind : Param → NodeKind
  | name _ _ => .param
  | fault _ => .fault

/-- A parameter by its kind and name. -/
def title : Param → String
  | name _ token => NodeKind.param.name ++ " (" ++ token.value ++ ")"
  | fault f => f.title

end Param

/-- A tree by its kind and its parameters, operator or text. -/
def Tree.title (tree : Tree) : String :=
  match tree with
  | identifier _ token => tree.kind.name ++ " (" ++ token.value ++ ")"
  | literal _ token _ => tree.kind.name ++ " (" ++ token.value ++ ")"
  | fault f => f.title
  | function _ _ params _ _ =>
    (params.filterMap Param.declared?).foldl (fun title (_, name) => title ++ " " ++ name)
      tree.kind.name
  | unary _ operator _ => tree.kind.name ++ " " ++ operator.value
  | binary _ _ operator _ => tree.kind.name ++ " " ++ operator.value
  | placeholder _ _ => tree.kind.name
  | paren _ _ _ _ => tree.kind.name
  | letIn _ _ _ _ _ => tree.kind.name
  | record _ _ _ _ => tree.kind.name
  | apply _ _ _ => tree.kind.name

namespace Node

/-- The node of an item of a let. -/
def ofBinding : Item → Node
  | .definition id name equals value => binding id name equals value
  | .fault f => tree (.fault f)

/-- The node of an item of a record. -/
def ofField : Item → Node
  | .definition id name equals value => field id name equals value
  | .fault f => tree (.fault f)

/-- The kind of a node. -/
def kind : Node → NodeKind
  | tree t => t.kind
  | binding _ _ _ _ => .binding
  | field _ _ _ _ => .field

/-- The identity of a node. -/
def id : Node → NodeId
  | tree t => t.id
  | binding id _ _ _ => id
  | field id _ _ _ => id

/-- The span of a node. -/
def span : Node → Span
  | tree t => t.span
  | binding _ name _ value => name.span.through value.span
  | field _ name _ value => name.span.through value.span

/-- A node by its kind and its parameters, operator, declared name or text. -/
def title : Node → String
  | tree t => t.title
  | binding _ name _ _ => NodeKind.binding.name ++ " " ++ name.value ++ "="
  | field _ name _ _ => NodeKind.field.name ++ " " ++ name.value ++ "="

/-- The nodes directly below a node, in source order. -/
def children : Node → List Node
  | tree (.identifier _ _) => []
  | tree (.literal _ _ _) => []
  | tree (.placeholder _ _) => []
  | tree (.fault _) => []
  | tree (.paren _ _ inner _) => [tree inner]
  | tree (.letIn _ _ items _ body) => items.map ofBinding ++ [tree body]
  | tree (.function _ _ _ _ body) => [tree body]
  | tree (.record _ _ items _) => items.map ofField
  | tree (.unary _ _ operand) => [tree operand]
  | tree (.binary _ left _ right) => [tree left, tree right]
  | tree (.apply _ callee argument) => [tree callee, tree argument]
  | binding _ _ _ value => [tree value]
  | field _ _ _ value => [tree value]

/-- The node reached by going down to the children with the given indices. -/
def descend? : Node → List Nat → Option Node
  | node, [] => some node
  | node, index :: path => node.children[index]?.bind (descend? · path)

end Node

mutual

/-- The nodes of a tree that stands at some depth, each with its depth and before those below
it. -/
def Tree.nodesAt (depth : Nat) (tree : Tree) : List (Nat × Node) :=
  (depth, .tree tree) ::
    match tree with
    | .identifier _ _ => []
    | .literal _ _ _ => []
    | .placeholder _ _ => []
    | .fault _ => []
    | .paren _ _ inner _ => inner.nodesAt (depth + 1)
    | .letIn _ _ items _ body =>
      Item.listNodesAt Node.ofBinding (depth + 1) items ++ body.nodesAt (depth + 1)
    | .function _ _ _ _ body => body.nodesAt (depth + 1)
    | .record _ _ items _ => Item.listNodesAt Node.ofField (depth + 1) items
    | .unary _ _ operand => operand.nodesAt (depth + 1)
    | .binary _ left _ right => left.nodesAt (depth + 1) ++ right.nodesAt (depth + 1)
    | .apply _ callee argument => callee.nodesAt (depth + 1) ++ argument.nodesAt (depth + 1)

/-- The nodes of an item that stands at some depth. -/
def Item.nodesAt (toNode : Item → Node) (depth : Nat) (item : Item) : List (Nat × Node) :=
  (depth, toNode item) ::
    match item with
    | .definition _ _ _ value => value.nodesAt (depth + 1)
    | .fault _ => []

/-- The nodes of the items of a list. -/
def Item.listNodesAt (toNode : Item → Node) (depth : Nat) : List Item → List (Nat × Node)
  | [] => []
  | item :: items => item.nodesAt toNode depth ++ Item.listNodesAt toNode depth items

end

/-- The nodes of a tree with their depths, each before those below it. -/
def Tree.nodes (tree : Tree) : List (Nat × Node) := tree.nodesAt 0

mutual

/-- Go through the nodes of a tree in source order. Each node is entered before the nodes below it
and left after them. -/
def Tree.walk {σ : Type} (enter leave : Node → σ → σ) (tree : Tree) (state : σ) : σ :=
  leave (.tree tree) <|
    match tree with
    | .identifier _ _ => enter (.tree tree) state
    | .literal _ _ _ => enter (.tree tree) state
    | .placeholder _ _ => enter (.tree tree) state
    | .fault _ => enter (.tree tree) state
    | .paren _ _ inner _ => inner.walk enter leave (enter (.tree tree) state)
    | .letIn _ _ items _ body =>
      body.walk enter leave
        (Item.walkList Node.ofBinding enter leave items (enter (.tree tree) state))
    | .function _ _ _ _ body => body.walk enter leave (enter (.tree tree) state)
    | .record _ _ items _ =>
      Item.walkList Node.ofField enter leave items (enter (.tree tree) state)
    | .unary _ _ operand => operand.walk enter leave (enter (.tree tree) state)
    | .binary _ left _ right =>
      right.walk enter leave (left.walk enter leave (enter (.tree tree) state))
    | .apply _ callee argument =>
      argument.walk enter leave (callee.walk enter leave (enter (.tree tree) state))

/-- Go through the nodes of an item. -/
def Item.walk {σ : Type} (toNode : Item → Node) (enter leave : Node → σ → σ) (item : Item)
    (state : σ) : σ :=
  leave (toNode item) <|
    match item with
    | .definition _ _ _ value => value.walk enter leave (enter (toNode item) state)
    | .fault _ => enter (toNode item) state

/-- Go through the nodes of the items of a list. -/
def Item.walkList {σ : Type} (toNode : Item → Node) (enter leave : Node → σ → σ) :
    List Item → σ → σ
  | [], state => state
  | item :: items, state =>
    Item.walkList toNode enter leave items (item.walk toNode enter leave state)

end

/-- One line for each node of a tree, indented by two blanks for each level. -/
def Tree.outline (tree : Tree) : String :=
  tree.nodes.foldl (fun text (depth, node) =>
    text ++ String.ofList (List.replicate (2 * depth) ' ') ++ node.title ++ "\n") ""

end LetScript
