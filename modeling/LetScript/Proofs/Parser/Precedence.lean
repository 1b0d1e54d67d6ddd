import LetScript.Proofs.Parser.Coverage
import LetScript.Proofs.Tree.Shape

/-!
# The parser obeys the powers

Every tree that the parser gives is regular (`Tree.parse_regular`): it is well-shaped, and within
the limits on nesting and height. The invariant is about the two edges of an expression. On its left
edge every power is above the one asked for. On its right edge the next token would continue none
of the operands that are still open, because each of them was left at this token (`Shaped`).
-/

namespace LetScript

/-- A token that continues an expression has the level of its power. -/
theorem Token.level_of_infix_rule {token : Token} {power : Power} {rule : InfixRule}
    (h : Grammar.standard.infixRule token.kind = some (power, rule)) :
    token.level = power.rank := by
  rw [Token.level, ← Grammar.standard_power, Grammar.power, h]

/-- The level of a token is not above a power if the token does not continue expressions there. -/
theorem Token.level_le_iff {token : Token} {floor : Power} :
    token.level ≤ floor.rank ↔ ∀ power rule,
      Grammar.standard.infixRule token.kind = some (power, rule) → ¬ floor < power := by
  constructor
  · intro hle power rule hrule
    rw [Token.level_of_infix_rule hrule] at hle
    exact mt Power.lt_iff_rank.1 (Nat.not_lt.2 hle)
  · intro hstop
    cases hrule : Grammar.standard.infixRule token.kind with
    | none =>
        rw [Token.level, ← Grammar.standard_power, Grammar.power, hrule]
        exact Nat.zero_le _
    | some found =>
        rw [Token.level_of_infix_rule hrule]
        exact Nat.not_lt.1 (mt Power.lt_iff_rank.2 (hstop found.1 found.2 hrule))

/-- An argument continues an expression with the greatest power. -/
theorem Grammar.power_of_apply {kind : Kind} {power : Power}
    (h : Grammar.standard.infixRule kind = some (power, .apply)) : power = .apply := by
  cases kind <;> cases h <;> rfl

/-- A sign continues an expression as an operator and never as an argument. -/
theorem Grammar.not_sign_of_apply {kind : Kind} {power : Power}
    (h : Grammar.standard.infixRule kind = some (power, .apply)) : kind ∉ Kind.signs := by
  cases kind <;> cases h <;> decide

/-- No power is above that of an argument. -/
theorem Token.level_le_apply (token : Token) : token.level ≤ Power.apply.rank := by
  unfold Token.level
  cases token.kind.power <;> decide

/-- A left edge above the power of an argument has no continuation on it. -/
theorem Tree.head_eq_top {tree : Tree} (h : Power.apply.rank < tree.head) : tree.head = ⊤ := by
  cases tree with
  | binary _ left operator _ =>
      have hlt := (lt_min_iff.1 h).1
      exact absurd operator.level_le_apply (Nat.not_le.2 (Nat.cast_lt.1 hlt))
  | apply _ callee _ => exact absurd (lt_min_iff.1 h).1 (lt_irrefl _)
  | identifier | literal | placeholder | fault | paren | letIn | function | record | unary => rfl

namespace Parser

open Reading

/-- The edges of an expression: its left edge is above a power, and on its right edge the next
token continues nothing. Only a sign starts an expression that is one. -/
structure Shaped (room : Nat) (floor : Power) (first : Token) (tree : Tree) (next : Token) :
    Prop where
  regular : tree.Regular room
  head : floor.rank < tree.head
  tail : next.level ≤ tree.tail
  start : tree.kind = .unary → first.kind ∈ Kind.signs

/-- The reading of a whole expression: it is shaped, and the next token does not continue it. -/
def Complete (room : Nat) (floor : Power) : Reading Tree := fun first tree _ next =>
  Shaped room floor first tree next ∧ next.level ≤ floor.rank

variable {room : Nat} {first next : Token} {w : List Token}

/-- A definition is regular if its value is a whole expression. -/
theorem definition_regular {terminator : Kind} {power : Power} {item : Item}
    (h : recovered terminator .fault (Definition (Complete room power)) first item w next) :
    item.Regular power room := by
  rcases h with ⟨id, -, -, hvalue⟩ | ⟨fault, rfl, -, -⟩
  · exact ⟨hvalue.1.head, hvalue.1.regular⟩
  · trivial

/-- The items of a let are regular. -/
theorem let_items_regular {items : List Item}
    (h : Items .inWord (recovered .inWord .fault (LetItem (Complete room .letIn))) first items w
      next) : ∀ item ∈ items, item.Regular .letIn room := by
  induction h with
  | done => exact fun _ hitem => absurd hitem List.not_mem_nil
  | item _ hitem _ ih =>
      refine List.forall_mem_cons.2 ⟨?_, ih⟩
      rcases hitem with (⟨hitem, -⟩ | ⟨hitem, -⟩) | ⟨fault, rfl, -, -⟩
      · exact definition_regular hitem
      · exact definition_regular hitem
      · trivial

/-- The items of a record are regular. -/
theorem record_items_regular {items : List Item}
    (h : Items .closeCurly (recovered .closeCurly .fault (RecordItem (Complete room .record))) first
      items w next) : ∀ item ∈ items, item.Regular .record room := by
  induction h with
  | done => exact fun _ hitem => absurd hitem List.not_mem_nil
  | item _ hitem _ ih =>
      refine List.forall_mem_cons.2 ⟨?_, ih⟩
      rcases hitem with ⟨hitem, -⟩ | ⟨fault, rfl, -, -⟩
      · exact definition_regular hitem
      · trivial

/-- An expression that ends with its own token is not open to the next one. -/
theorem Shaped.of_closed {floor : Power} {tree : Tree} (hregular : tree.Regular room)
    (hhead : tree.head = ⊤) (htail : tree.tail = ⊤) (hkind : tree.kind ≠ .unary) :
    Shaped room floor first tree next where
  regular := hregular
  head := hhead ▸ WithTop.coe_lt_top _
  tail := htail ▸ le_top
  start := fun h => absurd h hkind

/-- An expression that ends with a whole expression inside is open where that one is, and at the
power of the one inside. -/
theorem Shaped.of_open {room' : Nat} {floor power : Power} {tree part : Tree} {first' : Token}
    (hregular : tree.Regular room) (hhead : tree.head = ⊤)
    (htail : tree.tail = min (power.rank : WithTop Nat) part.tail)
    (hpart : Complete room' power first' part w next)
    (hstart : tree.kind = .unary → first.kind ∈ Kind.signs) :
    Shaped room floor first tree next where
  regular := hregular
  head := hhead ▸ WithTop.coe_lt_top _
  tail := htail ▸ le_min (Nat.cast_le.2 hpart.2) hpart.1.tail
  start := hstart

/-- An expression that starts with a token is shaped, if its operands are whole expressions. -/
theorem prefix_form_shaped {floor : Power} {rule : PrefixRule} {tree : Tree}
    (hfirst : first.kind ∈ rule.starts) (h : PrefixForm (Complete room) rule first tree w next) :
    Shaped (room + 1) floor first tree next := by
  cases h with
  | identifier => exact .of_closed Tree.regular_identifier rfl rfl nofun
  | literal => exact .of_closed Tree.regular_literal rfl rfl nofun
  | invalid => exact .of_closed Tree.regular_fault rfl rfl nofun
  | placeholder => exact .of_closed Tree.regular_placeholder rfl rfl nofun
  | function id hparams hbody =>
      exact .of_open (Tree.regular_function.2 ⟨hbody.1.head, hbody.1.regular⟩) rfl rfl hbody
        nofun
  | letIn id hitems hbody =>
      exact .of_open
        (Tree.regular_let_in.2 ⟨let_items_regular hitems, hbody.1.head, hbody.1.regular⟩) rfl rfl
        hbody nofun
  | record id hitems =>
      exact .of_closed (Tree.regular_record.2 (record_items_regular hitems)) rfl rfl nofun
  | group id hinner hcloser =>
      refine .of_closed (Tree.regular_paren.2 ?_) rfl rfl nofun
      rcases hinner with hinner | ⟨fault, rfl, -, -⟩
      · exact hinner.1.regular
      · exact Tree.regular_fault
  | sign id hoperand =>
      exact .of_open (Tree.regular_unary.2 ⟨hoperand.1.head, hoperand.1.regular⟩) rfl rfl hoperand
        (fun _ => hfirst)

/-- An operator with its right operand continues a shaped expression to a shaped one. -/
theorem Shaped.binary {floor power : Power} {id : NodeId} {left right : Tree}
    {operator first' : Token} (hleft : Shaped (room + 1) floor first left operator)
    (hpower : operator.level = power.rank) (hlt : floor < power)
    (hright : Complete room power first' right w next)
    (hheight : (Tree.binary id left operator right).height ≤ maxHeight) :
    Shaped (room + 1) floor first (.binary id left operator right) next where
  regular := Tree.regular_binary.2
    ⟨⟨hleft.tail, hpower ▸ hright.1.head⟩, hheight, hleft.regular, hright.1.regular⟩
  head := lt_min (Nat.cast_lt.2 (hpower ▸ Power.lt_iff_rank.1 hlt)) hleft.head
  tail := le_min (Nat.cast_le.2 (hpower ▸ hright.2)) hright.1.tail
  start := nofun

/-- An argument continues a shaped expression to a shaped one. It is no sign, because a sign would
have continued the expression as an operator. -/
theorem Shaped.apply {floor : Power} {id : NodeId} {callee argument : Tree} {middle : Token}
    (hcallee : Shaped (room + 1) floor first callee middle)
    (hrule : Grammar.standard.infixRule middle.kind = some (.apply, .apply)) (hlt : floor < .apply)
    (hargument : Complete room .apply middle argument w next)
    (hheight : (Tree.apply id callee argument).height ≤ maxHeight) :
    Shaped (room + 1) floor first (.apply id callee argument) next where
  regular := by
    have hsign : argument.kind ≠ .unary := fun hkind =>
      Grammar.not_sign_of_apply hrule (hargument.1.start hkind)
    have htail : Power.apply.rank ≤ callee.tail := Token.level_of_infix_rule hrule ▸ hcallee.tail
    exact Tree.regular_apply.2 ⟨⟨htail, Tree.head_eq_top hargument.1.head, hsign⟩, hheight,
      hcallee.regular, hargument.1.regular⟩
  head := lt_min (Nat.cast_lt.2 (Power.lt_iff_rank.1 hlt)) hcallee.head
  tail := le_min (Nat.cast_le.2 next.level_le_apply) hargument.1.tail
  start := nofun

/-- Being shaped is closed under the layers of the language. -/
theorem shaped_interpretation :
    Interpretation .standard (fun room floor first tree _ next =>
      Shaped (room + 1) floor first tree next) Complete where
  of_start hrule hform :=
    prefix_form_shaped (Grammar.mem_starts hrule) (hform (Grammar.kind_ne_end hrule))
  of_continuation hleft hrule hlt hform hheight := by
    cases hform (Grammar.infix_kind_ne_end hrule) with
    | binary id hright => exact hleft.binary (Token.level_of_infix_rule hrule) hlt hright hheight
    | apply id hargument =>
        obtain rfl := Grammar.power_of_apply hrule
        exact hleft.apply hrule hlt hargument hheight
  of_left hleft hstop := ⟨hleft, Token.level_le_iff.2 hstop⟩

end Parser

/-- The tree of a token sequence is well-shaped and within the limits. -/
theorem Tree.parse_regular (tokens : Array Token) : (Tree.parse tokens).Regular maxNesting := by
  rcases Tree.parse_outcome Parser.shaped_interpretation tokens with
    ⟨_, _, _, htree⟩ | ⟨fault, hfault, -⟩
  · exact htree.1.regular
  · rw [hfault]
    exact Tree.regular_fault

end LetScript
