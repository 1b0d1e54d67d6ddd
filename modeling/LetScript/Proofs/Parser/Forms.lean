import LetScript.Parser.Expression
import LetScript.Proofs.Parser.Reading

/-!
# The forms of expressions

One layer of an expression is read by the rule of its first token, or as what continues a left
operand. `PrefixForm P` and `InfixForm P` list these layers, where the operands inside are read by
`P`. `parse_prefix_parses` and `parse_infix_parses` say that the parser reads nothing else.
`expression_parses` then carries any meaning of finished expressions over to the whole parser: it
is enough that the meaning is closed under the layers (`Interpretation`).
-/

namespace LetScript.Parser

variable {α β : Type} {stream : TokenStream}

/-! ## Steps in front of a parser -/

/-- A token of a given kind is read before the rest. -/
theorem Parses.expect_bind {kind : Kind} (hend : kind ≠ .endOfInput) {f : Token → Parse β}
    {S : Token → Reading β} (hf : ∀ token, Parses stream (f token) (S token)) :
    Parses stream (expect stream kind >>= f) fun first result w next =>
      first.kind = kind ∧ ∃ rest middle, w = first :: rest ∧ S first middle result rest next := by
  refine ((expect_parses kind).bind hf).mono ?_
  rintro first result w next ⟨token, w₁, w₂, middle, rfl, ⟨hkind, rfl, -, hone⟩, hrest⟩
  rw [hone (hkind ▸ hend)]
  exact ⟨hkind, w₂, middle, rfl, hrest⟩

/-- The current token is read before the rest, unless it is the end of input. -/
theorem Parses.advance_bind {f : Token → Parse β} {S : Token → Reading β}
    (hf : ∀ token, Parses stream (f token) (S token)) :
    Parses stream (advance stream >>= f) fun first result w next =>
      first.kind ≠ .endOfInput →
        ∃ rest middle, w = first :: rest ∧ S first middle result rest next := by
  refine (advance_parses.bind hf).mono ?_
  rintro first result w next ⟨token, w₁, w₂, middle, rfl, ⟨rfl, -, hone⟩, hrest⟩ hend
  rw [hone hend]
  exact ⟨w₂, middle, rfl, hrest⟩

/-- A node with a new identity is built without reading anything. -/
theorem node_parses (node : NodeId → α) :
    Parses stream (freshId >>= fun id => Pure.pure (node id))
      (.nothing fun _ result => ∃ id, result = node id) := by
  refine (fresh_id_parses.bind fun id => .pure (node id)).mono ?_
  rintro first result w next ⟨id, w₁, w₂, middle, rfl, ⟨-, rfl, rfl⟩, rfl, rfl, rfl⟩
  exact ⟨⟨id, rfl⟩, rfl, rfl⟩

/-- A node is built from a part that was read. -/
theorem Parses.node {p : Parse α} {R : Reading α} (hp : Parses stream p R)
    (node : α → NodeId → β) :
    Parses stream (p >>= fun value => freshId >>= fun id => Pure.pure (node value id))
      fun first result w next => ∃ value id, result = node value id ∧ R first value w next := by
  refine (hp.bind fun value => node_parses (node value)).mono ?_
  rintro first result w next ⟨value, w₁, w₂, middle, rfl, hvalue, ⟨id, rfl⟩, rfl, rfl⟩
  exact ⟨value, id, rfl, by rwa [List.append_nil]⟩

/-! ## Layers -/

namespace Reading

/-- `name = value`, where the value is read by `R`. -/
inductive Definition (R : Reading Tree) : Reading Item
  | mk (id : NodeId) {name equals middle next : Token} {value : Tree} {w : List Token} :
      name.kind = .identifier → equals.kind = .equals → R middle value w next →
      Definition R name (.definition id name equals value) (name :: equals :: w) next

/-- A definition in a let and the semicolon after it, which may be left out before `in`. -/
inductive LetItem (R : Reading Tree) : Reading Item
  | ended {first semicolon next : Token} {item : Item} {w : List Token} :
      recovered .semicolon .fault (Definition R) first item w semicolon →
      semicolon.kind = .semicolon → LetItem R first item (w ++ [semicolon]) next
  | last {first next : Token} {item : Item} {w : List Token} :
      recovered .semicolon .fault (Definition R) first item w next → next.kind = .inWord →
      LetItem R first item w next

/-- A definition in a record and the semicolon after it. -/
inductive RecordItem (R : Reading Tree) : Reading Item
  | ended {first semicolon next : Token} {item : Item} {w : List Token} :
      recovered .semicolon .fault (Definition R) first item w semicolon →
      semicolon.kind = .semicolon → RecordItem R first item (w ++ [semicolon]) next

/-- The name of a parameter. -/
inductive ParamName : Reading Param
  | mk (id : NodeId) {token next : Token} :
      token.kind = .identifier → ParamName token (.name id token) [token] next

/-- An item of a let that reads nothing ends at `in`. -/
theorem LetItem.progress {R : Reading Tree} {first next : Token} {item : Item}
    (h : LetItem R first item [] next) : next.kind = .inWord := by
  generalize hw : ([] : List Token) = w at h
  cases h with
  | ended => simp at hw
  | last _ hkind => exact hkind

/-- An item of a record reads its semicolon at least. -/
theorem RecordItem.progress {R : Reading Tree} {first next : Token} {item : Item} {kind : Kind}
    (h : RecordItem R first item [] next) : next.kind = kind := by
  generalize hw : ([] : List Token) = w at h
  cases h
  simp at hw

/-- A parameter reads its name. -/
theorem ParamName.progress {first next : Token} {param : Param} {kind : Kind}
    (h : ParamName first param [] next) : next.kind = kind := by
  cases h

end Reading

open Reading

/-- An expression that starts with a token, read by a rule. The operands inside it are read by
`P`. -/
inductive PrefixForm (P : Power → Reading Tree) : PrefixRule → Reading Tree
  | identifier (id : NodeId) {token next : Token} :
      PrefixForm P .identifier token (.identifier id token) [token] next
  | literal (id : NodeId) {token next : Token} {value : Binary64} :
      Binary64.read? token.value = some value →
      PrefixForm P .literal token (.literal id token value) [token] next
  | invalid {token next : Token} {fault : Fault} :
      fault.skipped = [token] → PrefixForm P .invalid token (.fault fault) [token] next
  | placeholder (id : NodeId) {token next : Token} :
      PrefixForm P .placeholder token (.placeholder id token) [token] next
  | function (id : NodeId) {fnToken first arrow second next : Token} {params : List Param}
      {body : Tree} {w w' : List Token} :
      Items .arrow (recovered .arrow .fault ParamName) first params w arrow →
      P .function second body w' next →
      PrefixForm P .function fnToken (.function id fnToken params arrow body)
        (fnToken :: w ++ arrow :: w') next
  | letIn (id : NodeId) {letToken first inToken second next : Token} {items : List Item}
      {body : Tree} {w w' : List Token} :
      Items .inWord (recovered .inWord .fault (LetItem (P .letIn))) first items w inToken →
      P .letIn second body w' next →
      PrefixForm P .letIn letToken (.letIn id letToken items inToken body)
        (letToken :: w ++ inToken :: w') next
  | record (id : NodeId) {opener first closer next : Token} {items : List Item}
      {w : List Token} :
      Items .closeCurly (recovered .closeCurly .fault (RecordItem (P .record))) first items w
        closer →
      PrefixForm P .record opener (.record id opener items closer) (opener :: w ++ [closer]) next
  | group (id : NodeId) {opener first closer next : Token} {inner : Tree} {w : List Token} :
      recovered .closeParen .fault (P .lowest) first inner w closer →
      closer.kind = .closeParen →
      PrefixForm P .group opener (.paren id opener inner closer) (opener :: w ++ [closer]) next
  | sign (id : NodeId) {operator first next : Token} {operand : Tree} {w : List Token} :
      P .additive first operand w next →
      PrefixForm P .sign operator (.unary id operator operand) (operator :: w) next

/-- What continues an expression, read by a rule with some power. The operand inside it is read by
`P`. -/
inductive InfixForm (P : Power → Reading Tree) (power : Power) : InfixRule → Reading Continuation
  | binary (id : NodeId) {operator first next : Token} {right : Tree} {w : List Token} :
      P power first right w next →
      InfixForm P power .binary operator (.binary id operator right) (operator :: w) next
  | apply (id : NodeId) {first next : Token} {argument : Tree} {w : List Token} :
      P .apply first argument w next → InfixForm P power .apply first (.apply id argument) w next

section Layers

variable {operand : Power → Parse Tree} {P : Power → Reading Tree}

/-- A definition is read as `name = value`. -/
theorem definition_parses (hoperand : ∀ power, Parses stream (operand power) (P power))
    (power : Power) :
    Parses stream (definition stream operand power) (Definition (P power)) := by
  refine (Parses.expect_bind (by decide) fun name => .expect_bind (by decide) fun equals =>
    (hoperand power).node fun value id => Item.definition id name equals value).mono ?_
  rintro first item w next ⟨hname, w', middle, rfl, hequals, w'', middle', rfl, value, id, rfl,
    hvalue⟩
  exact .mk id hname hequals hvalue

/-- An item of a let is read with its semicolon, or `in` comes next. -/
theorem let_item_parses (hoperand : ∀ power, Parses stream (operand power) (P power)) :
    Parses stream (letItem stream operand) (LetItem (P .letIn)) := by
  have hdefinition := recovering_parses (show Kind.semicolon ≠ .blank by decide) Item.fault
    (definition_parses hoperand .letIn)
  have hend (item : Item) (kind : Kind) :
      Parses stream (if kind ≠ .inWord then expect stream .semicolon >>= fun _ => Pure.pure item
        else Pure.pure item) fun first result w next =>
          result = item ∧ (first.kind = .semicolon ∧ w = [first] ∨
            kind = .inWord ∧ w = [] ∧ next = first) := by
    by_cases hkind : kind = .inWord
    · rw [if_neg (not_not_intro hkind)]
      exact (Parses.pure item).mono fun _ _ _ _ ⟨hresult, hw, hnext⟩ =>
        ⟨hresult, .inr ⟨hkind, hw, hnext⟩⟩
    · rw [if_pos hkind]
      refine (Parses.expect_bind (by decide) fun _ => .pure item).mono ?_
      rintro first result w next ⟨hsemicolon, rest, middle, rfl, rfl, rfl, rfl⟩
      exact ⟨rfl, .inl ⟨hsemicolon, rfl⟩⟩
  refine (hdefinition.bind fun item => current_kind_parses.bind fun kind => hend item kind).mono ?_
  rintro first item w next ⟨_, w₁, w₂, middle, rfl, hitem, kind, w₃, w₄, middle', rfl,
    ⟨rfl, rfl, rfl⟩, rfl, ⟨hkind, rfl⟩ | ⟨hkind, rfl, rfl⟩⟩
  · exact .ended hitem hkind
  · rw [List.append_nil, List.append_nil]
    exact .last hitem hkind

/-- An item of a record is read with its semicolon. -/
theorem record_item_parses (hoperand : ∀ power, Parses stream (operand power) (P power)) :
    Parses stream (recordItem stream operand) (RecordItem (P .record)) := by
  have hdefinition := recovering_parses (show Kind.semicolon ≠ .blank by decide) Item.fault
    (definition_parses hoperand .record)
  refine (hdefinition.bind fun item => .expect_bind (by decide) fun _ => .pure item).mono ?_
  rintro first item w next ⟨_, w₁, w₂, semicolon, rfl, hitem, hkind, rest, middle, rfl, rfl, rfl,
    rfl⟩
  exact .ended hitem hkind

/-- A parameter is read as a name. -/
theorem param_parses : Parses stream (param stream) ParamName := by
  refine (Parses.expect_bind (by decide) fun token => node_parses (Param.name · token)).mono ?_
  rintro first param w next ⟨hkind, rest, middle, rfl, ⟨id, rfl⟩, rfl, rfl⟩
  exact .mk id hkind

/-- The parameters up to the arrow are read one after another. -/
theorem params_parse :
    Parses stream (itemsUntil stream .arrow .fault (param stream) [])
      (Items .arrow (recovered .arrow .fault ParamName)) :=
  items_until_parses (by decide) _ param_parses fun _ _ _ _ => ParamName.progress

/-- The items of a let up to `in` are read one after another. -/
theorem let_items_parse (hoperand : ∀ power, Parses stream (operand power) (P power)) :
    Parses stream (itemsUntil stream .inWord .fault (letItem stream operand) [])
      (Items .inWord (recovered .inWord .fault (LetItem (P .letIn)))) :=
  items_until_parses (by decide) _ (let_item_parses hoperand) fun _ _ _ _ => LetItem.progress

/-- The items of a record up to its end are read one after another. -/
theorem record_items_parse (hoperand : ∀ power, Parses stream (operand power) (P power)) :
    Parses stream (itemsUntil stream .closeCurly .fault (recordItem stream operand) [])
      (Items .closeCurly (recovered .closeCurly .fault (RecordItem (P .record)))) :=
  items_until_parses (by decide) _ (record_item_parses hoperand) fun _ _ _ _ =>
    RecordItem.progress

/-- An expression that starts with a token is read by the rule of this token. -/
theorem parse_prefix_parses (hoperand : ∀ power, Parses stream (operand power) (P power))
    (rule : PrefixRule) :
    Parses stream (parsePrefix stream operand rule) fun first tree w next =>
      first.kind ≠ .endOfInput → PrefixForm P rule first tree w next := by
  cases rule with
  | identifier =>
      refine (Parses.advance_bind fun token => node_parses (Tree.identifier · token)).mono ?_
      intro first tree w next hread hend
      obtain ⟨rest, middle, rfl, ⟨id, rfl⟩, rfl, rfl⟩ := hread hend
      exact .identifier id
  | literal =>
      refine (current_parses.bind (S := fun token => fun first tree w next =>
        first = token → first.kind ≠ .endOfInput → PrefixForm P .literal first tree w next)
        fun token => ?_).mono ?_
      · cases hvalue : Binary64.read? token.value with
        | none => exact raise_parses _ _ _
        | some value =>
            refine (Parses.advance_bind fun token =>
              node_parses (Tree.literal · token value)).mono ?_
            rintro first tree w next hread rfl hend
            obtain ⟨rest, middle, rfl, ⟨id, rfl⟩, rfl, rfl⟩ := hread hend
            exact .literal id hvalue
      · rintro first tree w next ⟨token, w₁, w₂, middle, rfl, ⟨rfl, rfl, rfl⟩, hread⟩
        exact hread rfl
  | invalid =>
      refine (Parses.advance_bind fun token => node_parses fun id => Tree.fault
        ⟨id, token.diagnostic.getD ⟨.unrecognisedSymbol, token.span.start⟩, token, [token]⟩).mono ?_
      intro first tree w next hread hend
      obtain ⟨rest, middle, rfl, ⟨id, rfl⟩, rfl, rfl⟩ := hread hend
      exact .invalid rfl
  | placeholder =>
      refine (Parses.advance_bind fun token => node_parses (Tree.placeholder · token)).mono ?_
      intro first tree w next hread hend
      obtain ⟨rest, middle, rfl, ⟨id, rfl⟩, rfl, rfl⟩ := hread hend
      exact .placeholder id
  | function =>
      refine (Parses.advance_bind fun fnToken => params_parse.bind fun params =>
        .expect_bind (by decide) fun arrow => (hoperand .function).node fun body id =>
          Tree.function id fnToken params arrow body).mono ?_
      intro first tree w next hread hend
      obtain ⟨rest, middle, rfl, params, w₁, w₂, arrow, rfl, hparams, harrow, w₃, middle', rfl,
        body, id, rfl, hbody⟩ := hread hend
      exact .function id hparams hbody
  | letIn =>
      refine (Parses.advance_bind fun letToken => (let_items_parse hoperand).bind fun items =>
        .expect_bind (by decide) fun inToken => (hoperand .letIn).node fun body id =>
          Tree.letIn id letToken items inToken body).mono ?_
      intro first tree w next hread hend
      obtain ⟨rest, middle, rfl, items, w₁, w₂, inToken, rfl, hitems, hin, w₃, middle', rfl,
        body, id, rfl, hbody⟩ := hread hend
      exact .letIn id hitems hbody
  | record =>
      refine (Parses.advance_bind fun opener => (record_items_parse hoperand).bind fun items =>
        .expect_bind (by decide) fun closer =>
          node_parses fun id => Tree.record id opener items closer).mono ?_
      intro first tree w next hread hend
      obtain ⟨rest, middle, rfl, items, w₁, w₂, closer, rfl, hitems, hcloser, w₃, middle', rfl,
        ⟨id, rfl⟩, rfl, rfl⟩ := hread hend
      exact .record id hitems
  | group =>
      have hinner := recovering_parses (show Kind.closeParen ≠ .blank by decide) Tree.fault
        (hoperand .lowest)
      refine (Parses.advance_bind fun opener => hinner.bind fun inner =>
        .expect_bind (by decide) fun closer =>
          node_parses fun id => Tree.paren id opener inner closer).mono ?_
      intro first tree w next hread hend
      obtain ⟨rest, middle, rfl, inner, w₁, w₂, closer, rfl, hinner, hcloser, w₃, middle', rfl,
        ⟨id, rfl⟩, rfl, rfl⟩ := hread hend
      exact .group id hinner hcloser
  | sign =>
      refine (Parses.advance_bind fun operator => (hoperand .additive).node fun tree id =>
        Tree.unary id operator tree).mono ?_
      intro first tree w next hread hend
      obtain ⟨rest, middle, rfl, tree, id, rfl, htree⟩ := hread hend
      exact .sign id htree

/-- What continues an expression is read by the rule of the next token. -/
theorem parse_infix_parses (hoperand : ∀ power, Parses stream (operand power) (P power))
    (power : Power) (rule : InfixRule) :
    Parses stream (parseInfix stream operand power rule) fun first continuation w next =>
      first.kind ≠ .endOfInput → InfixForm P power rule first continuation w next := by
  cases rule with
  | binary =>
      refine (Parses.advance_bind fun operator => (hoperand power).node fun right id =>
        Continuation.binary id operator right).mono ?_
      intro first continuation w next hread hend
      obtain ⟨rest, middle, rfl, right, id, rfl, hright⟩ := hread hend
      exact .binary id hright
  | apply =>
      refine ((hoperand .apply).node fun argument id => Continuation.apply id argument).mono ?_
      rintro first continuation w next ⟨argument, id, rfl, hargument⟩ -
      exact .apply id hargument

end Layers

/-! ## Whole expressions -/

/-- A meaning of expressions that is closed under the layers of a grammar: `left` holds of what was
read before the next token is looked at, and `whole` of an expression that the next token does not
continue. Both depend on how many expressions may be nested and on the power that continues. -/
structure Interpretation (grammar : Grammar) (left whole : Nat → Power → Reading Tree) : Prop where
  of_start {room : Nat} {floor : Power} {rule : PrefixRule} {first next : Token} {tree : Tree}
    {w : List Token} : grammar.prefixRule first.kind = some rule →
    (first.kind ≠ .endOfInput → PrefixForm (whole room) rule first tree w next) →
    left room floor first tree w next
  of_continuation {room : Nat} {floor power : Power} {rule : InfixRule} {first middle next : Token}
    {tree : Tree} {continuation : Continuation} {w w' : List Token} :
    left room floor first tree w middle →
    grammar.infixRule middle.kind = some (power, rule) → floor < power →
    (middle.kind ≠ .endOfInput →
      InfixForm (whole room) power rule middle continuation w' next) →
    (continuation.attach tree).height ≤ maxHeight →
    left room floor first (continuation.attach tree) (w ++ w') next
  of_left {room : Nat} {floor : Power} {first next : Token} {tree : Tree} {w : List Token} :
    left room floor first tree w next →
    (∀ power rule, grammar.infixRule next.kind = some (power, rule) → ¬ floor < power) →
    whole (room + 1) floor first tree w next

variable {grammar : Grammar} {left whole : Nat → Power → Reading Tree}

/-- Reading on from a left operand to the whole expression. -/
def Continued (left whole : Nat → Power → Reading Tree) (room : Nat) (floor : Power)
    (tree : Tree) : Reading Tree := fun middle result w' next =>
  ∀ first w, left room floor first tree w middle →
    whole (room + 1) floor first result (w ++ w') next

/-- A left operand that the next token does not continue is the whole expression. -/
theorem Interpretation.stop_parses (h : Interpretation grammar left whole) {room : Nat}
    {floor : Power} (tree : Tree) {kind : Kind}
    (hstop : ∀ power rule, grammar.infixRule kind = some (power, rule) → ¬ floor < power) :
    Parses stream (Pure.pure tree) fun middle result w' next =>
      kind = middle.kind → Continued left whole room floor tree middle result w' next := by
  refine (Parses.pure tree).mono ?_
  rintro middle result w' next ⟨rfl, rfl, rfl⟩ rfl first w hleft
  rw [List.append_nil]
  exact h.of_left hleft hstop

/-- Continuing a left operand reads on to the whole expression. -/
theorem continue_from_parses (h : Interpretation grammar left whole) (room : Nat)
    {operand : Power → Parse Tree}
    (hoperand : ∀ power, Parses stream (operand power) (whole room power)) (floor : Power)
    (tree : Tree) (height : Nat) (hheight : height = tree.height) :
    Parses stream (continueFrom stream grammar operand floor tree height)
      (Continued left whole room floor tree) := by
  induction tree, height using continueFrom.induct with
  | case1 tree height ih =>
      rw [continueFrom]
      refine (current_kind_parses.bind (S := fun kind => fun middle result w' next =>
        kind = middle.kind → Continued left whole room floor tree middle result w' next)
        fun kind => ?_).mono ?_
      · cases hrule : grammar.infixRule kind with
        | none => exact h.stop_parses tree fun power rule hsome => by simp [hrule] at hsome
        | some found =>
            obtain ⟨power, rule⟩ := found
            by_cases hlt : floor < power
            · simp only [if_pos hlt]
              refine ((parse_infix_parses hoperand power rule).bind (S := fun continuation =>
                fun middle result w' next => (continuation.attach tree).height ≤ maxHeight ∧
                  Continued left whole room floor (continuation.attach tree) middle result w' next)
                fun continuation => ?_).mono ?_
              · -- the height passed on is that of the tree built so far
                have hnew : max height continuation.height + 1 =
                    (continuation.attach tree).height := by
                  rw [Continuation.height_attach, hheight]
                by_cases hle : max height continuation.height + 1 ≤ maxHeight
                · rw [dif_pos hle]
                  exact (ih continuation hle hnew).mono fun _ _ _ _ hread => ⟨hnew ▸ hle, hread⟩
                · rw [dif_neg hle]
                  exact raise_here_parses _ _
              · rintro middle result w' next ⟨continuation, w₁, w₂, middle', rfl, hform, hle,
                  hread⟩ rfl first w hleft
                rw [← List.append_assoc]
                exact hread first _ (h.of_continuation hleft hrule hlt hform hle)
            · simp only [if_neg hlt]
              refine h.stop_parses tree fun power' rule' hsome => ?_
              rw [hrule] at hsome
              obtain ⟨rfl, rfl⟩ := hsome
              exact hlt
      · rintro middle result w next ⟨kind, w₁, w₂, middle', rfl, ⟨rfl, rfl, rfl⟩, hread⟩
        exact hread rfl

/-- Every expression that the parser gives has the meaning of a whole expression. -/
theorem expression_parses (h : Interpretation grammar left whole) (room : Nat) (floor : Power) :
    Parses stream (expression stream grammar room floor) (whole room floor) := by
  -- operands are parsed with less room, whatever power they are parsed above
  induction room generalizing floor with
  | zero => exact raise_here_parses _ _
  | succ room ih =>
      rw [expression]
      refine .nested <| (current_parses.bind (S := fun token => fun first result w next =>
        token = first → whole (room + 1) floor first result w next) fun token => ?_).mono ?_
      · cases hrule : grammar.prefixRule token.kind with
        | none => exact raise_parses _ _ _
        | some rule =>
            refine ((parse_prefix_parses ih rule).bind fun tree =>
              continue_from_parses h room ih floor tree tree.height rfl).mono ?_
            rintro first result w next ⟨tree, w₁, w₂, middle, rfl, hstart, hread⟩ rfl
            exact hread token w₁ (h.of_start hrule hstart)
      · rintro first result w next ⟨token, w₁, w₂, middle, rfl, ⟨rfl, rfl, rfl⟩, hread⟩
        exact hread rfl

/-- A program that the parser gives has the meaning of a whole expression, and the end of input
comes next after it. -/
theorem program_parses (stream : TokenStream) (h : Interpretation grammar left whole) :
    Parses stream (program stream grammar) fun first tree w next =>
      next.kind = .endOfInput ∧ whole maxNesting .lowest first tree w next := by
  refine ((expression_parses h maxNesting .lowest).bind fun tree =>
    (expect_parses .endOfInput).bind fun _ => .pure tree).mono ?_
  rintro first tree w next ⟨_, w₁, w₂, middle, rfl, htree, token, w₃, w₄, middle', rfl,
    ⟨hkind, rfl, hend, -⟩, rfl, rfl, rfl⟩
  -- the end of input is found but not passed
  obtain ⟨rfl, rfl⟩ := hend hkind
  rw [List.append_nil, List.append_nil]
  exact ⟨hkind, htree⟩

end LetScript.Parser
