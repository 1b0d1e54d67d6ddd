import LetScript.Proofs.Token.Window
import LetScript.Tree.Basic

/-!
# The tokens that a tree derives

`Tree.Derives tree w` says that the tree stands for the significant tokens `w`, in their order.
Every node derives the tokens it was built from around those of its parts, and a fault derives the
significant tokens that it skipped. Semicolons are not kept in trees: in a let every item has one
after it, but the last item need not, and in a record only a fault in the last place may lack it.
-/

namespace LetScript

/-- The kinds of tokens that stand between two operands. -/
def Kind.operators : List Kind := [.plus, .dash, .star, .slash, .doubleCaret]

/-- The kinds of tokens that stand as a sign before an operand. -/
def Kind.signs : List Kind := [.plus, .dash]

/-- A parameter derives its name, or the tokens that were skipped. -/
inductive Param.Derives : Param → List Token → Prop where
  | name {id : NodeId} {token : Token} :
      token.kind = .identifier → Param.Derives (.name id token) [token]
  | fault {fault : Fault} : Param.Derives (.fault fault) (Token.significant fault.skipped)

/-- A list of parameters derives what they derive, in order. -/
inductive Param.ListDerives : List Param → List Token → Prop where
  | nil : Param.ListDerives [] []
  | cons {param : Param} {params : List Param} {w w' : List Token} :
      param.Derives w → Param.ListDerives params w' → Param.ListDerives (param :: params) (w ++ w')

mutual

/-- A tree derives a list of significant tokens. -/
inductive Tree.Derives : Tree → List Token → Prop where
  | identifier {id : NodeId} {token : Token} :
      token.kind = .identifier → Tree.Derives (.identifier id token) [token]
  | literal {id : NodeId} {token : Token} {value : Binary64} :
      token.kind = .number → Binary64.read? token.value = some value →
      Tree.Derives (.literal id token value) [token]
  | placeholder {id : NodeId} {token : Token} :
      token.kind = .ellipsis → Tree.Derives (.placeholder id token) [token]
  | fault {fault : Fault} : Tree.Derives (.fault fault) (Token.significant fault.skipped)
  | paren {id : NodeId} {opener closer : Token} {inner : Tree} {w : List Token} :
      opener.kind = .openParen → Tree.Derives inner w → closer.kind = .closeParen →
      Tree.Derives (.paren id opener inner closer) (opener :: w ++ [closer])
  | letIn {id : NodeId} {letToken inToken : Token} {items : List Item} {body : Tree}
      {w w' : List Token} :
      letToken.kind = .letWord → Item.LetDerives items w → inToken.kind = .inWord →
      Tree.Derives body w' →
      Tree.Derives (.letIn id letToken items inToken body) (letToken :: w ++ inToken :: w')
  | function {id : NodeId} {fnToken arrow : Token} {params : List Param} {body : Tree}
      {w w' : List Token} :
      fnToken.kind = .fnWord → Param.ListDerives params w → arrow.kind = .arrow →
      Tree.Derives body w' →
      Tree.Derives (.function id fnToken params arrow body) (fnToken :: w ++ arrow :: w')
  | record {id : NodeId} {opener closer : Token} {items : List Item} {w : List Token} :
      opener.kind = .openCurly → Item.RecordDerives items w → closer.kind = .closeCurly →
      Tree.Derives (.record id opener items closer) (opener :: w ++ [closer])
  | unary {id : NodeId} {operator : Token} {operand : Tree} {w : List Token} :
      operator.kind ∈ Kind.signs → Tree.Derives operand w →
      Tree.Derives (.unary id operator operand) (operator :: w)
  | binary {id : NodeId} {left right : Tree} {operator : Token} {w w' : List Token} :
      Tree.Derives left w → operator.kind ∈ Kind.operators → Tree.Derives right w' →
      Tree.Derives (.binary id left operator right) (w ++ operator :: w')
  | apply {id : NodeId} {callee argument : Tree} {w w' : List Token} :
      Tree.Derives callee w → Tree.Derives argument w' →
      Tree.Derives (.apply id callee argument) (w ++ w')

/-- An item derives its definition, or the tokens that were skipped. -/
inductive Item.Derives : Item → List Token → Prop where
  | definition {id : NodeId} {name equals : Token} {value : Tree} {w : List Token} :
      name.kind = .identifier → equals.kind = .equals → Tree.Derives value w →
      Item.Derives (.definition id name equals value) (name :: equals :: w)
  | fault {fault : Fault} : Item.Derives (.fault fault) (Token.significant fault.skipped)

/-- The items of a let, each followed by a semicolon, which the last may lack. -/
inductive Item.LetDerives : List Item → List Token → Prop where
  | nil : Item.LetDerives [] []
  | last {item : Item} {w : List Token} : Item.Derives item w → Item.LetDerives [item] w
  | cons {item : Item} {items : List Item} {semicolon : Token} {w w' : List Token} :
      Item.Derives item w → semicolon.kind = .semicolon → Item.LetDerives items w' →
      Item.LetDerives (item :: items) (w ++ semicolon :: w')

/-- The items of a record, each followed by a semicolon, which a fault in the last place may
lack. -/
inductive Item.RecordDerives : List Item → List Token → Prop where
  | nil : Item.RecordDerives [] []
  | last {fault : Fault} : Item.RecordDerives [.fault fault] (Token.significant fault.skipped)
  | cons {item : Item} {items : List Item} {semicolon : Token} {w w' : List Token} :
      Item.Derives item w → semicolon.kind = .semicolon → Item.RecordDerives items w' →
      Item.RecordDerives (item :: items) (w ++ semicolon :: w')

end

end LetScript
