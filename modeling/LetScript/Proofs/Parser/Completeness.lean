import LetScript.Proofs.Parser.Acceptance
import LetScript.Proofs.Parser.Precedence
import LetScript.Proofs.Tree.Heights

/-!
# The parser accepts the grammar

A regular tree without faults is found again from the tokens it derives, up to the identities of its
nodes (`expression_accepts`). An operand ends where the next token has no greater power than the
right edge of the operand, so the parser leaves each operand exactly where the tree ends. The left
edge is followed from the inside out: the parser builds the innermost left operand first and then
continues it (`expression_reaches`). Together with `Tree.parse_regular` this says which token
sequences are accepted, and that their tree is the only regular one (`Tree.parse_accepts_grammar`).
-/

namespace LetScript

/-- The rank of the power with which the first token of a list continues an expression. -/
def Token.upcomingLevel (tokens : List Token) : Nat :=
  (Token.upcoming tokens).power.rank

/-- A token without a rule continues no expression. -/
theorem Token.upcoming_level_of_none {token : Token} {rest : List Token}
    (h : Grammar.standard.infixRule token.kind = none) :
    Token.upcomingLevel (token :: rest) = 0 := by
  rw [Token.upcomingLevel, Token.upcoming, ← Grammar.standard_power, Grammar.power, h]
  rfl

/-- An operator continues an expression with another operand. -/
theorem Grammar.infix_of_operator {kind : Kind} (h : kind ∈ Kind.operators) :
    ∃ power, Grammar.standard.infixRule kind = some (power, .binary) ∧ Power.lowest < power := by
  simp only [Kind.operators, List.mem_cons, List.not_mem_nil, or_false] at h
  rcases h with rfl | rfl | rfl | rfl | rfl
  all_goals exact ⟨_, rfl, by decide⟩

/-- A sign starts an expression. -/
theorem Grammar.prefix_of_sign {kind : Kind} (h : kind ∈ Kind.signs) :
    Grammar.standard.prefixRule kind = some .sign := by
  simp only [Kind.signs, List.mem_cons, List.not_mem_nil, or_false] at h
  rcases h with rfl | rfl
  all_goals rfl

/-- The left edge of a tree that derives tokens is above the lowest power. -/
theorem Tree.head_pos {tree : Tree} {w : List Token} (h : tree.Derives w) :
    Power.lowest.rank < tree.head := by
  cases h with
  | binary hleft hoperator _ =>
      obtain ⟨power, hrule, hlt⟩ := Grammar.infix_of_operator hoperator
      refine lt_min ?_ (Tree.head_pos hleft)
      rw [Token.level_of_infix_rule hrule]
      exact Nat.cast_lt.2 (Power.lt_iff_rank.1 hlt)
  | apply hcallee _ => exact lt_min (Nat.cast_lt.2 (by decide)) (Tree.head_pos hcallee)
  | identifier | literal | placeholder | fault | paren | letIn | function | record | unary =>
      exact WithTop.coe_lt_top _

/-- Forgetting the identities of a list of items item by item. -/
theorem Item.list_without_ids (items : List Item) :
    Item.listWithoutIds items = items.map Item.withoutIds := by
  induction items with
  | nil => rfl
  | cons item items ih => rw [Item.listWithoutIds, ih, List.map_cons]

namespace Parser

/-- An operand is accepted if it is regular and without faults: the parser for operands of some
power finds it from its tokens, unless the next token would continue it. -/
def AcceptsOperands (stream : TokenStream) (stop room : Nat) (operand : Power → Parse Tree) :
    Prop :=
  ∀ ⦃power : Power⦄ ⦃tree : Tree⦄ ⦃w rest : List Token⦄, tree.Derives w → tree.FaultFree →
    tree.Regular room → power.rank < tree.head → Token.upcomingLevel rest ≤ power.rank →
    Token.upcomingLevel rest ≤ tree.tail →
    Accepts stream stop (operand power) (w ++ rest) rest (·.SameShape tree)

variable {stream : TokenStream} {stop room : Nat} {operand : Power → Parse Tree}
  {w rest : List Token}

/-- An operand is accepted before a token that continues no expression. -/
theorem AcceptsOperands.before_end (hoperand : AcceptsOperands stream stop room operand)
    {power : Power} {tree : Tree} (hderives : tree.Derives w) (hfree : tree.FaultFree)
    (hregular : tree.Regular room) (hhead : power.rank < tree.head)
    (hrest : Token.upcomingLevel rest = 0) :
    Accepts stream stop (operand power) (w ++ rest) rest (·.SameShape tree) := by
  refine hoperand hderives hfree hregular hhead ?_ ?_
  · rw [hrest]
    exact Nat.zero_le _
  · rw [hrest, Nat.cast_zero]
    exact zero_le

/-! ## Items and parameters -/

/-- A definition is accepted before a token that continues no expression. -/
theorem definition_accepts (hoperand : AcceptsOperands stream stop room operand) {power : Power}
    {item : Item} (hderives : item.Derives w) (hfree : item.FaultFree)
    (hregular : item.Regular power room) (hrest : Token.upcomingLevel rest = 0) :
    Accepts stream stop (definition stream operand power) (w ++ rest) rest
      fun found => found.withoutIds = item.withoutIds := by
  cases hderives with
  | fault => exact hfree.elim
  | definition hname hequals hvalue =>
      refine (expect_accepts hname).bind fun name hname => ?_
      refine (expect_accepts hequals).bind fun equals hequals => ?_
      refine (hoperand.before_end hvalue hfree hregular.2 hregular.1 hrest).bind
        fun value hvalue => .node fun id => ?_
      rw [hname, hequals, Item.withoutIds, Item.withoutIds, hvalue]

/-- A definition that waits for a semicolon is accepted before a token without a rule. -/
theorem item_accepts (hoperand : AcceptsOperands stream stop room operand) {power : Power}
    {item : Item} {token : Token} (hderives : item.Derives w) (hfree : item.FaultFree)
    (hregular : item.Regular power room)
    (htoken : Grammar.standard.infixRule token.kind = none) :
    Accepts stream stop
      (recovering stream .semicolon .fault (definition stream operand power)) (w ++ token :: rest)
      (token :: rest) fun found => found.withoutIds = item.withoutIds :=
  recovering_accepts .semicolon .fault (definition_accepts hoperand hderives hfree hregular
    (Token.upcoming_level_of_none htoken))

/-- An item of a let is accepted with the semicolon after it. -/
theorem let_item_accepts (hoperand : AcceptsOperands stream stop room operand) {item : Item}
    {semicolon : Token} (hderives : item.Derives w) (hfree : item.FaultFree)
    (hregular : item.Regular .letIn room) (hsemicolon : semicolon.kind = .semicolon) :
    Accepts stream stop (letItem stream operand) (w ++ semicolon :: rest) rest
      fun found => found.withoutIds = item.withoutIds := by
  refine (item_accepts hoperand hderives hfree hregular (by rw [hsemicolon]; rfl)).bind
    fun found hfound => ?_
  refine current_kind_accepts.bind fun kind hkind => ?_
  have hne : kind ≠ .inWord := by
    rw [hkind, Token.upcoming, hsemicolon]
    decide
  rw [if_pos hne]
  exact (expect_accepts hsemicolon).bind fun _ _ => .pure hfound

/-- An item of a let is accepted without a semicolon before `in`. -/
theorem last_let_item_accepts (hoperand : AcceptsOperands stream stop room operand) {item : Item}
    {inToken : Token} (hderives : item.Derives w) (hfree : item.FaultFree)
    (hregular : item.Regular .letIn room) (hin : inToken.kind = .inWord) :
    Accepts stream stop (letItem stream operand) (w ++ inToken :: rest) (inToken :: rest)
      fun found => found.withoutIds = item.withoutIds := by
  refine (item_accepts hoperand hderives hfree hregular (by rw [hin]; rfl)).bind
    fun found hfound => ?_
  refine current_kind_accepts.bind fun kind hkind => ?_
  have heq : kind = .inWord := hkind.trans hin
  rw [if_neg (not_not_intro heq)]
  exact .pure hfound

/-- An item of a record is accepted with the semicolon after it. -/
theorem record_item_accepts (hoperand : AcceptsOperands stream stop room operand) {item : Item}
    {semicolon : Token} (hderives : item.Derives w) (hfree : item.FaultFree)
    (hregular : item.Regular .record room) (hsemicolon : semicolon.kind = .semicolon) :
    Accepts stream stop (recordItem stream operand) (w ++ semicolon :: rest) rest
      fun found => found.withoutIds = item.withoutIds := by
  refine (item_accepts hoperand hderives hfree hregular (by rw [hsemicolon]; rfl)).bind
    fun found hfound => ?_
  exact (expect_accepts hsemicolon).bind fun _ _ => .pure hfound

/-- A definition starts with its name. -/
theorem upcoming_of_item {item : Item} (hderives : item.Derives w) (hfree : item.FaultFree)
    (rest : List Token) : Token.upcoming (w ++ rest) = .identifier := by
  cases hderives with
  | fault => exact hfree.elim
  | definition hname => exact hname

/-- The parameters of a function are accepted up to the arrow. -/
theorem params_accept {arrow : Token} {params : List Param} (hderives : Param.ListDerives params w)
    (hfree : ∀ param ∈ params, ∀ f, param ≠ .fault f) (harrow : arrow.kind = .arrow) :
    Series stream stop .arrow (param stream) Param.withoutId params (w ++ arrow :: rest)
      (arrow :: rest) := by
  induction hderives with
  | nil => exact .done harrow
  | @cons param params w w' hparam _ ih =>
      obtain ⟨hfirst, hothers⟩ := List.forall_mem_cons.1 hfree
      cases hparam with
      | fault => exact absurd rfl (hfirst _)
      | name hname =>
          refine .item ?_ ((expect_accepts hname).bind fun token htoken => .node fun id => ?_)
            (by simp) (ih hothers)
          · intro heq
            exact absurd (hname.symm.trans heq) (by decide)
          · rw [htoken]
            rfl

/-- The items of a let are accepted up to `in`. -/
theorem let_items_accept (hoperand : AcceptsOperands stream stop room operand) {inToken : Token}
    {items : List Item} (hderives : Item.LetDerives items w)
    (hfree : ∀ item ∈ items, item.FaultFree) (hregular : ∀ item ∈ items, item.Regular .letIn room)
    (hin : inToken.kind = .inWord) :
    Series stream stop .inWord (letItem stream operand) Item.withoutIds items
      (w ++ inToken :: rest) (inToken :: rest) := by
  induction items generalizing w with
  | nil =>
      cases hderives
      exact .done hin
  | cons item items ih =>
      obtain ⟨hfirst, hothers⟩ := List.forall_mem_cons.1 hfree
      obtain ⟨hshape, hregulars⟩ := List.forall_mem_cons.1 hregular
      have hstart {w : List Token} (hitem : item.Derives w) (rest : List Token) :
          Token.upcoming (w ++ rest) ≠ .inWord := by
        rw [upcoming_of_item hitem hfirst]
        decide
      cases hderives with
      | last hitem =>
          have hlength : 0 < w.length := by
            cases hitem with
            | fault => exact hfirst.elim
            | definition => simp
          exact .item (hstart hitem _) (last_let_item_accepts hoperand hitem hfirst hshape hin)
            (by simpa using hlength) (.done hin)
      | @cons _ _ semicolon w w' hitem hsemicolon hitems =>
          rw [List.append_assoc, List.cons_append]
          refine .item (hstart hitem _)
            (let_item_accepts hoperand hitem hfirst hshape hsemicolon) ?_
            (ih hitems hothers hregulars)
          simp only [List.length_append, List.length_cons]
          omega

/-- The items of a record are accepted up to its end. -/
theorem record_items_accept (hoperand : AcceptsOperands stream stop room operand) {closer : Token}
    {items : List Item} (hderives : Item.RecordDerives items w)
    (hfree : ∀ item ∈ items, item.FaultFree) (hregular : ∀ item ∈ items, item.Regular .record room)
    (hcloser : closer.kind = .closeCurly) :
    Series stream stop .closeCurly (recordItem stream operand) Item.withoutIds items
      (w ++ closer :: rest) (closer :: rest) := by
  induction items generalizing w with
  | nil =>
      cases hderives
      exact .done hcloser
  | cons item items ih =>
      obtain ⟨hfirst, hothers⟩ := List.forall_mem_cons.1 hfree
      obtain ⟨hshape, hregulars⟩ := List.forall_mem_cons.1 hregular
      cases hderives with
      | last => exact hfirst.elim
      | @cons _ _ semicolon w w' hitem hsemicolon hitems =>
          have hstart (rest : List Token) : Token.upcoming (w ++ rest) ≠ .closeCurly := by
            rw [upcoming_of_item hitem hfirst]
            decide
          rw [List.append_assoc, List.cons_append]
          refine .item (hstart _) (record_item_accepts hoperand hitem hfirst hshape hsemicolon) ?_
            (ih hitems hothers hregulars)
          simp only [List.length_append, List.length_cons]
          omega

/-! ## Layers -/

/-- Parentheses are accepted around an expression. -/
theorem paren_accepts (hoperand : AcceptsOperands stream stop room operand) {id : NodeId}
    {opener closer : Token} {inner : Tree} (hinner : inner.Derives w) (hfree : inner.FaultFree)
    (hregular : inner.Regular room) (hcloser : closer.kind = .closeParen) :
    Accepts stream stop (parsePrefix stream operand .group) (opener :: (w ++ closer :: rest)) rest
      (·.SameShape (.paren id opener inner closer)) := by
  have hlevel : Token.upcomingLevel (closer :: rest) = 0 :=
    Token.upcoming_level_of_none (by rw [hcloser]; rfl)
  refine advance_accepts.bind fun opener hopener => ?_
  refine (recovering_accepts .closeParen .fault (hoperand.before_end hinner hfree hregular
    (Tree.head_pos hinner) hlevel)).bind fun inner hinner => ?_
  refine (expect_accepts hcloser).bind fun closer hcloser => .node fun id => ?_
  rw [hopener, hcloser, Tree.SameShape, Tree.withoutIds, Tree.withoutIds, hinner]

/-- A record is accepted with its fields. -/
theorem record_accepts (hoperand : AcceptsOperands stream stop room operand) {id : NodeId}
    {opener closer : Token} {items : List Item} (hitems : Item.RecordDerives items w)
    (hfree : ∀ item ∈ items, item.FaultFree) (hregular : ∀ item ∈ items, item.Regular .record room)
    (hcloser : closer.kind = .closeCurly) :
    Accepts stream stop (parsePrefix stream operand .record) (opener :: (w ++ closer :: rest)) rest
      (·.SameShape (.record id opener items closer)) := by
  refine advance_accepts.bind fun opener hopener => ?_
  refine (items_until_accepts .fault (record_items_accept hoperand hitems hfree hregular hcloser)
    []).bind fun items hitems => ?_
  refine (expect_accepts hcloser).bind fun closer hcloser => .node fun id => ?_
  rw [hopener, hcloser, Tree.SameShape, Tree.withoutIds, Tree.withoutIds, Item.list_without_ids,
    Item.list_without_ids, hitems]
  rfl

/-- A function is accepted where its body ends. -/
theorem function_accepts (hoperand : AcceptsOperands stream stop room operand) {id : NodeId}
    {fnToken arrow : Token} {params : List Param} {body : Tree} {w' : List Token}
    (hparams : Param.ListDerives params w) (hfree : ∀ param ∈ params, ∀ f, param ≠ .fault f)
    (harrow : arrow.kind = .arrow) (hbody : body.Derives w') (hbodyFree : body.FaultFree)
    (hregular : (Tree.function id fnToken params arrow body).Regular (room + 1))
    (htail : Token.upcomingLevel rest ≤ (Tree.function id fnToken params arrow body).tail) :
    Accepts stream stop (parsePrefix stream operand .function)
      (fnToken :: (w ++ arrow :: (w' ++ rest))) rest
      (·.SameShape (.function id fnToken params arrow body)) := by
  obtain ⟨hhead, hregular⟩ := Tree.regular_function.1 hregular
  obtain ⟨hlevel, htail⟩ := le_min_iff.1 htail
  refine advance_accepts.bind fun fnToken hfn => ?_
  refine (items_until_accepts .fault (params_accept hparams hfree harrow) []).bind
    fun params hparams => ?_
  refine (expect_accepts harrow).bind fun arrow harrow => ?_
  refine (hoperand hbody hbodyFree hregular hhead (Nat.cast_le.1 hlevel) htail).bind
    fun body hbody => .node fun id => ?_
  rw [hfn, harrow, Tree.SameShape, Tree.withoutIds, Tree.withoutIds, hbody, hparams]
  rfl

/-- A let is accepted where its body ends. -/
theorem let_accepts (hoperand : AcceptsOperands stream stop room operand) {id : NodeId}
    {letToken inToken : Token} {items : List Item} {body : Tree} {w' : List Token}
    (hitems : Item.LetDerives items w) (hfree : ∀ item ∈ items, item.FaultFree)
    (hin : inToken.kind = .inWord) (hbody : body.Derives w') (hbodyFree : body.FaultFree)
    (hregular : (Tree.letIn id letToken items inToken body).Regular (room + 1))
    (htail : Token.upcomingLevel rest ≤ (Tree.letIn id letToken items inToken body).tail) :
    Accepts stream stop (parsePrefix stream operand .letIn)
      (letToken :: (w ++ inToken :: (w' ++ rest))) rest
      (·.SameShape (.letIn id letToken items inToken body)) := by
  obtain ⟨hregulars, hhead, hregular⟩ := Tree.regular_let_in.1 hregular
  obtain ⟨hlevel, htail⟩ := le_min_iff.1 htail
  refine advance_accepts.bind fun letToken hlet => ?_
  refine (items_until_accepts .fault (let_items_accept hoperand hitems hfree hregulars hin)
    []).bind fun items hitems => ?_
  refine (expect_accepts hin).bind fun inToken hin => ?_
  refine (hoperand hbody hbodyFree hregular hhead (Nat.cast_le.1 hlevel) htail).bind
    fun body hbody => .node fun id => ?_
  rw [hlet, hin, Tree.SameShape, Tree.withoutIds, Tree.withoutIds, Item.list_without_ids,
    Item.list_without_ids, hbody, hitems]
  rfl

/-- A sign is accepted where its operand ends. -/
theorem unary_accepts (hoperand : AcceptsOperands stream stop room operand) {id : NodeId}
    {operator : Token} {tree : Tree} (htree : tree.Derives w) (hfree : tree.FaultFree)
    (hregular : (Tree.unary id operator tree).Regular (room + 1))
    (htail : Token.upcomingLevel rest ≤ (Tree.unary id operator tree).tail) :
    Accepts stream stop (parsePrefix stream operand .sign) (operator :: (w ++ rest)) rest
      (·.SameShape (.unary id operator tree)) := by
  obtain ⟨hhead, hregular⟩ := Tree.regular_unary.1 hregular
  obtain ⟨hlevel, htail⟩ := le_min_iff.1 htail
  refine advance_accepts.bind fun operator hoperator => ?_
  refine (hoperand htree hfree hregular hhead (Nat.cast_le.1 hlevel) htail).bind
    fun tree htree => .node fun id => ?_
  rw [hoperator, Tree.SameShape, Tree.withoutIds, Tree.withoutIds, htree]

/-- A leaf is accepted by a rule that passes its token. -/
theorem leaf_accepts {token : Token} {tree : Tree} {leaf : NodeId → Token → Tree}
    (hleaf : ∀ id, (leaf id token).SameShape tree) :
    Accepts stream stop (advance stream >>= fun found => freshId >>= fun id =>
      Pure.pure (leaf id found)) (token :: rest) rest (·.SameShape tree) := by
  refine advance_accepts.bind fun found hfound => .node fun id => ?_
  rw [hfound]
  exact hleaf id

/-- An expression that starts with a token is accepted by the rule of this token. -/
theorem parse_prefix_accepts (hoperand : AcceptsOperands stream stop room operand) {tree : Tree}
    (hderives : tree.Derives w) (hfree : tree.FaultFree) (hregular : tree.Regular (room + 1))
    (hhead : tree.head = ⊤) (htail : Token.upcomingLevel rest ≤ tree.tail) :
    ∃ first others rule, w ++ rest = first :: others ∧
      Grammar.standard.prefixRule first.kind = some rule ∧
      Accepts stream stop (parsePrefix stream operand rule) (first :: others) rest
        (·.SameShape tree) := by
  cases hderives with
  | @identifier id token hkind =>
      exact ⟨token, rest, .identifier, rfl, by rw [hkind]; rfl, leaf_accepts fun _ => rfl⟩
  | @literal id token value hkind hvalue =>
      refine ⟨token, rest, .literal, rfl, by rw [hkind]; rfl, ?_⟩
      refine current_accepts.bind fun found hfound => ?_
      rw [hfound]
      simp only [hvalue]
      exact leaf_accepts fun _ => rfl
  | @placeholder id token hkind =>
      exact ⟨token, rest, .placeholder, rfl, by rw [hkind]; rfl, leaf_accepts fun _ => rfl⟩
  | fault => exact absurd hfree Tree.not_fault_free_fault
  | @paren id opener closer inner w hopener hinner hcloser =>
      refine ⟨opener, w ++ closer :: rest, .group, by simp, by rw [hopener]; rfl, ?_⟩
      exact paren_accepts hoperand hinner (Tree.fault_free_paren.1 hfree)
        (Tree.regular_paren.1 hregular) hcloser
  | @letIn id letToken inToken items body w w' hlet hitems hin hbody =>
      obtain ⟨hitemsFree, hbodyFree⟩ := Tree.fault_free_let_in.1 hfree
      refine ⟨letToken, w ++ inToken :: (w' ++ rest), .letIn, by simp, by rw [hlet]; rfl, ?_⟩
      exact let_accepts hoperand hitems hitemsFree hin hbody hbodyFree hregular htail
  | @function id fnToken arrow params body w w' hfn hparams harrow hbody =>
      obtain ⟨hparamsFree, hbodyFree⟩ := Tree.fault_free_function.1 hfree
      refine ⟨fnToken, w ++ arrow :: (w' ++ rest), .function, by simp, by rw [hfn]; rfl, ?_⟩
      exact function_accepts hoperand hparams hparamsFree harrow hbody hbodyFree hregular htail
  | @record id opener closer items w hopener hitems hcloser =>
      refine ⟨opener, w ++ closer :: rest, .record, by simp, by rw [hopener]; rfl, ?_⟩
      exact record_accepts hoperand hitems (Tree.fault_free_record.1 hfree)
        (Tree.regular_record.1 hregular) hcloser
  | @unary id operator tree w hoperator htree =>
      refine ⟨operator, w ++ rest, .sign, rfl, Grammar.prefix_of_sign hoperator, ?_⟩
      exact unary_accepts hoperand htree (Tree.fault_free_unary.1 hfree) hregular htail
  | binary => exact absurd (min_eq_top.1 hhead).1 (WithTop.coe_ne_top)
  | apply => exact absurd (min_eq_top.1 hhead).1 (WithTop.coe_ne_top)

/-- The first token of an argument continues an expression as an argument. -/
theorem argument_start {tree : Tree} (hderives : tree.Derives w) (hfree : tree.FaultFree)
    (hhead : tree.head = ⊤) (hkind : tree.kind ≠ .unary) (rest : List Token) :
    Grammar.standard.infixRule (Token.upcoming (w ++ rest)) = some (.apply, .apply) := by
  have hstart {token : Token} {others : List Token} {kind : Kind} (htoken : token.kind = kind)
      (hrule : Grammar.standard.infixRule kind = some (.apply, .apply)) :
      Grammar.standard.infixRule (Token.upcoming (token :: others)) = some (.apply, .apply) := by
    rw [Token.upcoming, htoken, hrule]
  cases hderives with
  | identifier htoken | literal htoken | placeholder htoken => exact hstart htoken rfl
  | paren htoken | letIn htoken | function htoken | record htoken => exact hstart htoken rfl
  | fault => exact absurd hfree Tree.not_fault_free_fault
  | unary => exact absurd rfl hkind
  | binary => exact absurd (min_eq_top.1 hhead).1 (WithTop.coe_ne_top)
  | apply => exact absurd (min_eq_top.1 hhead).1 (WithTop.coe_ne_top)

/-! ## Whole expressions -/

/-- An expression is not continued by a token of no greater power. -/
theorem continue_from_stops {floor : Power} (left : Tree) (height : Nat)
    (hrest : Token.upcomingLevel rest ≤ floor.rank) :
    Accepts stream stop (continueFrom stream .standard operand floor left height) rest rest
      (· = left) := by
  rw [continueFrom]
  refine current_kind_accepts.bind fun kind hkind => ?_
  cases hrule : Grammar.standard.infixRule kind with
  | none => exact .pure rfl
  | some found =>
      obtain ⟨power, rule⟩ := found
      have hstop : ¬ floor < power := by
        rw [Token.upcomingLevel, ← hkind, ← Grammar.standard_power, Grammar.power, hrule] at hrest
        exact Nat.not_lt.2 hrest
      simp only [if_neg hstop]
      exact .pure rfl

/-- An expression that is continued by the next token is continued to the whole one. -/
theorem continue_from_accepts {floor power : Power} {rule : InfixRule} {left tree : Tree}
    {before middle after : List Token} {Q : Tree → Prop}
    (hrule : Grammar.standard.infixRule (Token.upcoming before) = some (power, rule))
    (hlt : floor < power) (hheight : tree.height ≤ maxHeight)
    (hrest : Accepts stream stop (parseInfix stream operand power rule) before middle
      fun continuation => (continuation.attach left).SameShape tree)
    (hmore : ∀ found : Tree, found.SameShape tree →
      Accepts stream stop (continueFrom stream .standard operand floor found found.height) middle
        after Q) :
    Accepts stream stop (continueFrom stream .standard operand floor left left.height) before after
      Q := by
  rw [continueFrom]
  refine current_kind_accepts.bind fun kind hkind => ?_
  rw [hkind]
  simp only [hrule, if_pos hlt]
  refine hrest.bind fun continuation hshape => ?_
  have hnew : max left.height continuation.height + 1 = (continuation.attach left).height :=
    (Continuation.height_attach left continuation).symm
  have hle : max left.height continuation.height + 1 ≤ maxHeight := by
    rw [hnew, hshape.height_eq]
    exact hheight
  rw [dif_pos hle, hnew]
  exact hmore _ hshape

/-- An operator with its right operand is accepted after a left operand. -/
theorem binary_accepts (hoperand : AcceptsOperands stream stop room operand) {power : Power}
    {id : NodeId} {found left right : Tree} {operator : Token} (hfound : found.SameShape left)
    (hpower : operator.level = power.rank) (hderives : right.Derives w) (hfree : right.FaultFree)
    (hhead : operator.level < right.head) (hregular : right.Regular room)
    (htail : Token.upcomingLevel rest ≤ (Tree.binary id left operator right).tail) :
    Accepts stream stop (parseInfix stream operand power .binary) (operator :: (w ++ rest)) rest
      fun continuation =>
        (continuation.attach found).SameShape (.binary id left operator right) := by
  obtain ⟨hlevel, htail⟩ := le_min_iff.1 htail
  rw [hpower] at hhead hlevel
  refine advance_accepts.bind fun operator hoperator => ?_
  refine (hoperand hderives hfree hregular hhead (Nat.cast_le.1 hlevel) htail).bind
    fun right hright => .node fun id => ?_
  rw [hoperator, Continuation.attach, Tree.SameShape, Tree.withoutIds, Tree.withoutIds, hfound,
    hright]

/-- An argument is accepted after a function. -/
theorem apply_accepts (hoperand : AcceptsOperands stream stop room operand) {id : NodeId}
    {found callee argument : Tree} (hfound : found.SameShape callee)
    (hderives : argument.Derives w) (hfree : argument.FaultFree) (hhead : argument.head = ⊤)
    (hregular : argument.Regular room)
    (htail : Token.upcomingLevel rest ≤ (Tree.apply id callee argument).tail) :
    Accepts stream stop (parseInfix stream operand .apply .apply) (w ++ rest) rest
      fun continuation => (continuation.attach found).SameShape (.apply id callee argument) := by
  obtain ⟨hlevel, htail⟩ := le_min_iff.1 htail
  have hlt : Power.apply.rank < argument.head := hhead ▸ WithTop.coe_lt_top _
  refine (hoperand hderives hfree hregular hlt (Nat.cast_le.1 hlevel) htail).bind
    fun argument hargument => .node fun id => ?_
  rw [Continuation.attach, Tree.SameShape, Tree.withoutIds, Tree.withoutIds, hfound, hargument]

/-- The parser reads the tokens of a tree whose left edge is above a power, and then stands before
the next token with this tree as its left operand. The proof follows the left edge: the innermost
left operand is read first, and each continuation on the edge is taken in turn. -/
theorem expression_reaches
    (hoperand : AcceptsOperands stream stop room (expression stream .standard room))
    {floor : Power} {after : List Token} {Q : Tree → Prop} (tree : Tree) {w rest : List Token}
    (hderives : tree.Derives w) (hfree : tree.FaultFree) (hregular : tree.Regular (room + 1))
    (hhead : floor.rank < tree.head) (htail : Token.upcomingLevel rest ≤ tree.tail)
    (hmore : ∀ found : Tree, found.SameShape tree →
      Accepts stream stop
        (continueFrom stream .standard (expression stream .standard room) floor found found.height)
        rest after Q) :
    Accepts stream stop (expression stream .standard (room + 1) floor) (w ++ rest) after Q := by
  by_cases htop : tree.head = ⊤
  · -- there is no continuation on the left edge: the first token has a rule for the whole tree
    obtain ⟨first, others, rule, hsplit, hrule, haccepts⟩ :=
      parse_prefix_accepts hoperand hderives hfree hregular htop htail
    rw [expression, hsplit]
    refine .nested (current_accepts.bind fun token htoken => ?_)
    rw [htoken]
    simp only [hrule]
    exact haccepts.bind hmore
  · cases hderives with
    | @binary id left right operator w w' hleft hoperator hright =>
        obtain ⟨hleftFree, hrightFree⟩ := Tree.fault_free_binary.1 hfree
        obtain ⟨⟨hedge, hrightHead⟩, hheight, hleftRegular, hrightRegular⟩ :=
          Tree.regular_binary.1 hregular
        obtain ⟨hlt, hleftHead⟩ := lt_min_iff.1 hhead
        obtain ⟨power, hrule, -⟩ := Grammar.infix_of_operator hoperator
        have hpower := Token.level_of_infix_rule hrule
        rw [List.append_assoc, List.cons_append]
        -- the operator comes next after the left operand, and the tail of the operand admits it
        refine expression_reaches hoperand left hleft hleftFree hleftRegular hleftHead hedge
          fun found hfound => continue_from_accepts hrule ?_ hheight
            (binary_accepts hoperand hfound hpower hright hrightFree hrightHead hrightRegular htail)
            hmore
        rw [hpower] at hlt
        exact Nat.cast_lt.1 hlt
    | @apply id callee argument w w' hcallee hargument =>
        obtain ⟨hcalleeFree, hargumentFree⟩ := Tree.fault_free_apply.1 hfree
        obtain ⟨⟨hedge, hargumentHead, hkind⟩, hheight, hcalleeRegular, hargumentRegular⟩ :=
          Tree.regular_apply.1 hregular
        obtain ⟨hlt, hcalleeHead⟩ := lt_min_iff.1 hhead
        have hrule := argument_start hargument hargumentFree hargumentHead hkind rest
        have hlevel : Token.upcomingLevel (w' ++ rest) = Power.apply.rank := by
          rw [Token.upcomingLevel, ← Grammar.standard_power, Grammar.power, hrule]
        rw [List.append_assoc]
        -- the first token of the argument comes next after the function
        exact expression_reaches hoperand callee hcallee hcalleeFree hcalleeRegular hcalleeHead
          (hlevel ▸ hedge) fun found hfound => continue_from_accepts hrule (Nat.cast_lt.1 hlt)
            hheight (apply_accepts hoperand hfound hargument hargumentFree hargumentHead
              hargumentRegular htail) hmore
    | identifier | literal | placeholder | fault | paren | letIn | function | record | unary =>
        exact absurd rfl htop

/-- A regular tree without faults is accepted as an operand. -/
theorem expression_accepts (room : Nat) :
    AcceptsOperands stream stop room (expression stream .standard room) := by
  induction room with
  | zero =>
      intro power tree w rest hderives hfree hregular
      exact absurd hregular.nested (Nat.not_le.2 (Tree.nesting_pos hfree))
  | succ room ih =>
      intro power tree w rest hderives hfree hregular hhead hrest htail
      exact expression_reaches ih tree hderives hfree hregular hhead htail fun found hfound =>
        (continue_from_stops found found.height hrest).mono fun result hresult => by
          rw [hresult]
          exact hfound

/-- A program is accepted if it derives a regular tree without faults. -/
theorem program_accepts {tree : Tree} (hderives : tree.Derives w) (hfree : tree.FaultFree)
    (hregular : tree.Regular maxNesting) :
    Accepts stream stop (program stream .standard) w [] (·.SameShape tree) := by
  have hexpression : Accepts stream stop (expression stream .standard maxNesting .lowest) (w ++ [])
      [] (·.SameShape tree) :=
    (expression_accepts maxNesting).before_end hderives hfree hregular (Tree.head_pos hderives) rfl
  rw [List.append_nil] at hexpression
  exact hexpression.bind fun found hfound => expect_end_accepts.bind fun _ _ => .pure hfound

end Parser

/-- The significant tokens of a sequence are ahead of the start of its stream. -/
theorem TokenStream.ahead_of_tokens (tokens : Array Token) :
    ∃ stop, Parser.Ahead (.ofTokens tokens) stop 0 (Token.program tokens) := by
  have hmem : Kind.endOfInput ∈ [Kind.endOfInput] := List.mem_singleton.2 rfl
  have hpasses := (TokenStream.ofTokens tokens).passes_skip_to 0 hmem
  have hend := List.mem_singleton.1 ((TokenStream.ofTokens tokens).kind_at_skip_to_mem 0 hmem)
  exact ⟨_, hpasses, TokenStream.window_eq_program hpasses hend, hend⟩

/-- A regular tree without faults is the tree of every token sequence that it derives, up to
identities. -/
theorem Tree.parse_same_shape {tokens : Array Token} {tree : Tree}
    (hderives : tree.Derives (Token.program tokens)) (hfree : tree.FaultFree)
    (hregular : tree.Regular maxNesting) : (Tree.parse tokens).SameShape tree := by
  obtain ⟨stop, hahead⟩ := TokenStream.ahead_of_tokens tokens
  obtain ⟨found, s', hrun, -, hfound⟩ := Parser.program_accepts hderives hfree hregular {} hahead
  unfold Tree.parse Tree.parseWith
  rw [hrun]
  exact hfound

/-- The grammar prescribes a tree for a list of significant tokens: the tree derives them without
a fault, it has the shape that the powers of its operators ask for, and it is within the limits on
nesting and height. -/
structure Tree.Grammatical (w : List Token) (tree : Tree) : Prop where
  derives : tree.Derives w
  fault_free : tree.FaultFree
  well_shaped : tree.WellShaped
  bounded : tree.Bounded
  nested : tree.nesting ≤ maxNesting

/-- The parser accepts exactly the grammar. A tree that it gives without faults is prescribed by the
grammar for the tokens, and a tree that the grammar prescribes for the tokens is the one that the
parser gives, up to identities. The height that is limited is that of a node above its tallest
child. -/
theorem Tree.parse_accepts_grammar (tokens : Array Token) :
    ((Tree.parse tokens).FaultFree → (Tree.parse tokens).Grammatical (Token.program tokens)) ∧
      (∀ tree : Tree, tree.Grammatical (Token.program tokens) →
        (Tree.parse tokens).FaultFree ∧ (Tree.parse tokens).SameShape tree) ∧
      ∀ node : Node, node.height = Node.tallest node.children + 1 := by
  refine ⟨?_, ?_, Node.height_eq⟩
  · intro hfree
    obtain ⟨hshaped, hbounded, hnested⟩ := Tree.parse_regular tokens
    exact ⟨Tree.parse_derives tokens, hfree, hshaped, hbounded, hnested⟩
  · intro tree htree
    have hregular : tree.Regular maxNesting := ⟨htree.well_shaped, htree.bounded, htree.nested⟩
    have hshape := Tree.parse_same_shape htree.derives htree.fault_free hregular
    exact ⟨hshape.fault_free_iff.2 htree.fault_free, hshape⟩

/-- In `f x * -y` the function is applied first, and the sign belongs to the second factor. -/
theorem Tree.parse_accepts_product :
    (Tree.parse #[⟨.identifier, "f", .empty .nowhere, false, none⟩,
        ⟨.blank, " ", .empty .nowhere, false, none⟩,
        ⟨.identifier, "x", .empty .nowhere, false, none⟩,
        ⟨.star, "*", .empty .nowhere, false, none⟩, ⟨.dash, "-", .empty .nowhere, false, none⟩,
        ⟨.identifier, "y", .empty .nowhere, false, none⟩]).SameShape
      (.binary 0
        (.apply 0 (.identifier 0 ⟨.identifier, "f", .empty .nowhere, false, none⟩)
          (.identifier 0 ⟨.identifier, "x", .empty .nowhere, false, none⟩))
        ⟨.star, "*", .empty .nowhere, false, none⟩
        (.unary 0 ⟨.dash, "-", .empty .nowhere, false, none⟩
          (.identifier 0 ⟨.identifier, "y", .empty .nowhere, false, none⟩))) := by
  refine ((Tree.parse_accepts_grammar _).2.1 _ ⟨?_, ?_, ?_, ?_, ?_⟩).2
  · exact Tree.Derives.binary (.apply (.identifier rfl) (.identifier rfl)) (by decide)
      (.unary (by decide) (.identifier rfl))
  · simp
  · have hlevel := Token.level_le_apply ⟨.star, "*", .empty .nowhere, false, none⟩
    simpa [Tree.WellShaped, Node.WellShaped, Tree.kind] using hlevel
  · simp [Tree.Bounded, Node.Bounded, Tree.height, maxHeight]
  · decide

end LetScript
