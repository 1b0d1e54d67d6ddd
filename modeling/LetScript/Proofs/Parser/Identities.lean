import LetScript.Parser.Expression
import LetScript.Proofs.Tree.Nodes

/-!
# Nodes have identities of their own

The parser takes identities from a counter, and a node takes its own after those of its parts. So
the identities of a tree increase from the parts of a node to the node and from left to right
(`Tree.parse_with_postorder`), although parsing also spends identities on parts that it gives up. In
particular no two nodes of a tree have the same identity (`Tree.parse_ids_nodup`), nor do two
parameters of a function (`Tree.parse_params_nodup`).
-/

namespace LetScript

mutual

/-- The identities of a tree, those of the parts of a node before its own. The parameters of a
function are parts of it. -/
def Tree.postorder : Tree → List NodeId
  | .identifier id _ => [id]
  | .literal id _ _ => [id]
  | .placeholder id _ => [id]
  | .fault f => [f.id]
  | .paren id _ inner _ => inner.postorder ++ [id]
  | .letIn id _ items _ body => Item.listPostorder items ++ body.postorder ++ [id]
  | .function id _ params _ body => params.map Param.id ++ body.postorder ++ [id]
  | .record id _ items _ => Item.listPostorder items ++ [id]
  | .unary id _ operand => operand.postorder ++ [id]
  | .binary id left _ right => left.postorder ++ right.postorder ++ [id]
  | .apply id callee argument => callee.postorder ++ argument.postorder ++ [id]

/-- The identities of an item. -/
def Item.postorder : Item → List NodeId
  | .definition id _ _ value => value.postorder ++ [id]
  | .fault f => [f.id]

/-- The identities of the items of a list. -/
def Item.listPostorder : List Item → List NodeId
  | [] => []
  | item :: items => item.postorder ++ Item.listPostorder items

end

/-- The identities of the items of a list are those of its items. -/
theorem Item.list_postorder_eq (items : List Item) :
    Item.listPostorder items = items.flatMap Item.postorder := by
  induction items with
  | nil => rfl
  | cons item items ih => rw [Item.listPostorder, ih, List.flatMap_cons]

/-- The identities of what continues an expression. -/
def Continuation.postorder : Continuation → List NodeId
  | binary id _ right => right.postorder ++ [id]
  | apply id argument => argument.postorder ++ [id]

/-- A continuation adds its identities to those of the left operand. -/
theorem Continuation.postorder_attach (left : Tree) (continuation : Continuation) :
    (continuation.attach left).postorder = left.postorder ++ continuation.postorder := by
  cases continuation <;> simp only [attach, Tree.postorder, postorder, List.append_assoc]

mutual

/-- An identity is at most as often among the nodes of a tree as in its postorder. -/
theorem Tree.count_ids_le (id : NodeId) (tree : Tree) :
    tree.ids.count id ≤ tree.postorder.count id := by
  cases tree with
  | identifier | literal | placeholder | fault => exact Nat.le_refl _
  | paren own opener inner closer =>
      have hinner := inner.count_ids_le id
      simp only [Tree.ids_paren, Tree.postorder, List.count_cons, List.count_append, List.count_nil]
      omega
  | letIn own letToken items inToken body =>
      have hitems := Item.count_list_ids_le id items
      have hbody := body.count_ids_le id
      simp only [Tree.ids_let_in, Tree.postorder, List.count_cons, List.count_append,
        List.count_nil]
      omega
  | function own fnToken params arrow body =>
      have hbody := body.count_ids_le id
      simp only [Tree.ids_function, Tree.postorder, List.count_cons, List.count_append,
        List.count_nil]
      omega
  | record own opener items closer =>
      have hitems := Item.count_list_ids_le id items
      simp only [Tree.ids_record, Tree.postorder, List.count_cons, List.count_append,
        List.count_nil]
      omega
  | unary own operator operand =>
      have hoperand := operand.count_ids_le id
      simp only [Tree.ids_unary, Tree.postorder, List.count_cons, List.count_append, List.count_nil]
      omega
  | binary own left operator right =>
      have hleft := left.count_ids_le id
      have hright := right.count_ids_le id
      simp only [Tree.ids_binary, Tree.postorder, List.count_cons, List.count_append,
        List.count_nil]
      omega
  | apply own callee argument =>
      have hcallee := callee.count_ids_le id
      have hargument := argument.count_ids_le id
      simp only [Tree.ids_apply, Tree.postorder, List.count_cons, List.count_append, List.count_nil]
      omega

/-- An identity is at most as often among the nodes of a list of items as in its postorder. -/
theorem Item.count_list_ids_le (id : NodeId) (items : List Item) :
    (items.flatMap Item.ids).count id ≤ (Item.listPostorder items).count id := by
  cases items with
  | nil => exact Nat.le_refl _
  | cons item items =>
      have hitem : item.ids.count id ≤ item.postorder.count id := by
        cases item with
        | definition own name equals value =>
            have hvalue := value.count_ids_le id
            simp only [Item.ids, Item.postorder, List.count_cons, List.count_append, List.count_nil]
            omega
        | fault f => exact Nat.le_refl _
      have hitems := Item.count_list_ids_le id items
      simp only [List.flatMap_cons, Item.listPostorder, List.count_append]
      omega

end

namespace Parser

variable {α β : Type} {stream : TokenStream}

/-- Identities in increasing order, all of them before the next one. -/
structure Below (ids : List NodeId) (next : NodeId) : Prop where
  increasing : ids.Pairwise (· < ·)
  lt_next : ∀ id ∈ ids, id < next

/-- An identity that was taken since may be put after the others. -/
theorem Below.snoc {ids : List NodeId} {next id next' : NodeId} (h : Below ids next)
    (hid : next ≤ id) (hlt : id < next') : Below (ids ++ [id]) next' := by
  refine ⟨List.pairwise_append.2 ⟨h.increasing, List.pairwise_singleton .., ?_⟩, ?_⟩
  · intro other hother last hlast
    rw [List.mem_singleton.1 hlast]
    exact Nat.lt_of_lt_of_le (h.lt_next other hother) hid
  · intro other hother
    rcases List.mem_append.1 hother with hother | hother
    · exact Nat.lt_trans (Nat.lt_of_lt_of_le (h.lt_next other hother) hid) hlt
    · rw [List.mem_singleton.1 hother]
      exact hlt

/-- How identities were given out since a state with the next identity `start`: those of a result
are increasing, and a fault has taken a new one. -/
def Numbered (ids : α → List NodeId) (start : NodeId) : EStateM.Result Fault State α → Prop
  | .ok result s => start ≤ s.nextId ∧ Below (ids result) s.nextId
  | .error fault s => start ≤ fault.id ∧ fault.id < s.nextId

/-- What was numbered since a state was numbered since the states before it. -/
theorem Numbered.of_le {ids : α → List NodeId} {start start' : NodeId} (hle : start ≤ start')
    {outcome : EStateM.Result Fault State α} (h : Numbered ids start' outcome) :
    Numbered ids start outcome := by
  cases outcome with
  | ok result s => exact ⟨Nat.le_trans hle h.1, h.2⟩
  | error fault s => exact ⟨Nat.le_trans hle h.1, h.2⟩

/-- How a parser gives out identities, if those in `given` were taken before. The identities of its
result include them. -/
def Numbers (p : Parse α) (given : List NodeId) (ids : α → List NodeId) : Prop :=
  ∀ s, Below given s.nextId → Numbered ids s.nextId (p s)

namespace Numbers

variable {given : List NodeId}

/-- A parser after another one. -/
theorem bind {p : Parse α} {f : α → Parse β} {middle : α → List NodeId} {ids : β → List NodeId}
    (hp : Numbers p given middle) (hf : ∀ value, Numbers (f value) (middle value) ids) :
    Numbers (p >>= f) given ids := by
  intro s hgiven
  have hfirst := hp s hgiven
  change Numbered ids s.nextId (EStateM.bind p f s)
  unfold EStateM.bind
  cases hcase : p s with
  | ok value s' =>
      rw [hcase] at hfirst
      exact .of_le hfirst.1 (hf value s' hfirst.2)
  | error fault s' =>
      rw [hcase] at hfirst
      exact hfirst

/-- A result without a step has the identities taken before. -/
theorem pure {value : α} {ids : α → List NodeId} (h : ids value = given) :
    Numbers (Pure.pure value) given ids := by
  intro s hgiven
  exact ⟨Nat.le_refl _, h ▸ hgiven⟩

/-- A new identity is put after the others. -/
theorem fresh_id : Numbers freshId given fun id => given ++ [id] := by
  intro s hgiven
  exact ⟨Nat.le_succ _, hgiven.snoc (Nat.le_refl _) (Nat.lt_succ_self _)⟩

/-- A node takes a new identity. -/
theorem node {node : NodeId → α} {ids : α → List NodeId}
    (h : ∀ id, ids (node id) = given ++ [id]) :
    Numbers (freshId >>= fun id => Pure.pure (node id)) given ids :=
  fresh_id.bind fun id => .pure (h id)

/-- One more expression takes the identities that are taken inside it. -/
theorem nested {p : Parse α} {ids : α → List NodeId} (hp : Numbers p given ids) :
    Numbers (nested p) given ids :=
  fun _ hgiven => outcome_nested (fun _ _ _ => id) (fun _ _ _ => id) (hp _ hgiven)

/-- Looking at the current token takes no identity. -/
theorem current : Numbers (current stream) given fun _ => given := by
  intro s hgiven
  exact ⟨Nat.le_refl _, hgiven⟩

/-- Looking at the kind of the current token takes no identity. -/
theorem current_kind : Numbers (currentKind stream) given fun _ => given := by
  intro s hgiven
  exact ⟨Nat.le_refl _, hgiven⟩

/-- Passing the current token takes no identity. -/
theorem advance : Numbers (advance stream) given fun _ => given := by
  intro s hgiven
  exact ⟨Nat.le_refl _, hgiven⟩

/-- A raised fault takes a new identity. -/
theorem raise (cause : Cause) (token : Token) {ids : α → List NodeId} :
    Numbers (raise stream cause token) given ids := by
  intro s _
  exact ⟨Nat.le_refl _, Nat.lt_succ_self _⟩

/-- A fault raised at the current token takes a new identity. -/
theorem raise_here (cause : Cause) {ids : α → List NodeId} :
    Numbers (raiseHere stream cause) given ids :=
  current.bind fun token => raise cause token

/-- Passing a token of a given kind takes no identity. -/
theorem expect (kind : Kind) : Numbers (expect stream kind) given fun _ => given := by
  refine current.bind fun token => ?_
  split
  · exact advance
  · exact raise _ _

/-- A part that a fault may stand for. The identities that were taken for the part before the fault
was raised are not used. -/
theorem recovering {kind : Kind} {body : Parse α} {ids : α → List NodeId} {ofFault : Fault → α}
    (hbody : Numbers body given ids) (hfault : ∀ fault, ids (ofFault fault) = given ++ [fault.id]) :
    Numbers (recovering stream kind ofFault body) given ids := by
  intro s hgiven
  have houtcome := hbody { s with awaited := ⟨kind, s.pos⟩ :: s.awaited } hgiven
  unfold Parser.recovering
  cases hcase : body { s with awaited := ⟨kind, s.pos⟩ :: s.awaited } with
  | ok result s' =>
      rw [hcase] at houtcome
      exact houtcome
  | error fault s' =>
      rw [hcase] at houtcome
      obtain ⟨hid, hlt⟩ := houtcome
      by_cases hkind : stream.kindAt (stream.significant s'.pos) = kind
      · simp only [if_pos hkind]
        refine ⟨Nat.le_of_lt (Nat.lt_of_le_of_lt hid hlt), ?_⟩
        rw [hfault]
        exact hgiven.snoc hid hlt
      · simp only [if_neg hkind]
        exact ⟨hid, hlt⟩

/-- Items up to a terminator have their identities one after another. -/
theorem items_until {terminator : Kind} {item : Parse α} {ids : α → List NodeId}
    {ofFault : Fault → α} (hfault : ∀ fault, ids (ofFault fault) = [fault.id])
    (hitem : ∀ given, Numbers item given fun found => given ++ ids found) (items : List α) :
    Numbers (itemsUntil stream terminator ofFault item items)
      (given ++ items.reverse.flatMap ids) fun all => given ++ all.flatMap ids := by
  have hstep (given : List NodeId) :
      Numbers (Parser.recovering stream terminator ofFault item) given fun found =>
        given ++ ids found :=
    (hitem given).recovering fun fault => by rw [hfault]
  have hnext (items : List α) (found : α) :
      given ++ items.reverse.flatMap ids ++ ids found =
        given ++ (found :: items).reverse.flatMap ids := by
    rw [List.reverse_cons, List.flatMap_append, List.flatMap_singleton, List.append_assoc]
  intro s hgiven
  fun_induction itemsUntil stream terminator ofFault item items s with
  | case1 items s pos hkind => exact ⟨Nat.le_refl _, hgiven⟩
  | case2 items s pos hkind fault s' hcase =>
      have houtcome := hstep _ { s with pos } hgiven
      rw [hcase] at houtcome
      exact houtcome
  | case3 items s pos hkind found s' hcase _ ih =>
      have houtcome := hstep _ { s with pos } hgiven
      rw [hcase] at houtcome
      exact .of_le houtcome.1 (ih (hnext items found ▸ houtcome.2))
  | case4 items s pos hkind found s' hcase hle =>
      have houtcome := hstep _ { s with pos } hgiven
      rw [hcase] at houtcome
      refine ⟨houtcome.1, ?_⟩
      show Below (given ++ (found :: items).reverse.flatMap ids) _
      rw [← hnext]
      exact houtcome.2

/-- All items up to a terminator. -/
theorem all_items {terminator : Kind} {item : Parse α} {ids : α → List NodeId}
    {ofFault : Fault → α} (hfault : ∀ fault, ids (ofFault fault) = [fault.id])
    (hitem : ∀ given, Numbers item given fun found => given ++ ids found) :
    Numbers (itemsUntil stream terminator ofFault item []) given fun all =>
      given ++ all.flatMap ids := by
  have hitems := @items_until α stream given terminator item ids ofFault hfault hitem []
  rwa [List.reverse_nil, List.flatMap_nil, List.append_nil] at hitems

end Numbers

/-! ## The identities of an expression -/

/-- A parameter takes one identity. -/
theorem param_numbers (given : List NodeId) :
    Numbers (param stream) given fun param => given ++ [param.id] :=
  (Numbers.expect .identifier).bind fun _ => .node fun _ => rfl

section Layers

variable {operand : Power → Parse Tree}
  (hoperand : ∀ power given, Numbers (operand power) given fun tree => given ++ tree.postorder)

include hoperand

/-- A definition has an identity after those of its value. -/
theorem definition_numbers (power : Power) (given : List NodeId) :
    Numbers (definition stream operand power) given fun item => given ++ item.postorder :=
  (Numbers.expect .identifier).bind fun _ => (Numbers.expect .equals).bind fun _ =>
    (hoperand power given).bind fun _ => .node fun _ => (List.append_assoc ..).symm

/-- An item of a let takes the identities of its definition. -/
theorem let_item_numbers (given : List NodeId) :
    Numbers (letItem stream operand) given fun item => given ++ item.postorder := by
  refine ((definition_numbers hoperand .letIn given).recovering fun _ => rfl).bind fun item =>
    Numbers.current_kind.bind fun kind => ?_
  split
  · exact (Numbers.expect .semicolon).bind fun _ => .pure rfl
  · exact .pure rfl

/-- An item of a record takes the identities of its definition. -/
theorem record_item_numbers (given : List NodeId) :
    Numbers (recordItem stream operand) given fun item => given ++ item.postorder :=
  ((definition_numbers hoperand .record given).recovering fun _ => rfl).bind fun _ =>
    (Numbers.expect .semicolon).bind fun _ => .pure rfl

/-- An expression that starts with a token has an identity after those of its parts. -/
theorem parse_prefix_numbers (rule : PrefixRule) (given : List NodeId) :
    Numbers (parsePrefix stream operand rule) given fun tree => given ++ tree.postorder := by
  cases rule with
  | identifier => exact Numbers.advance.bind fun _ => .node fun _ => rfl
  | literal =>
      refine Numbers.current.bind fun _ => ?_
      split
      · exact .raise _ _
      · exact Numbers.advance.bind fun _ => .node fun _ => rfl
  | invalid => exact Numbers.advance.bind fun _ => .node fun _ => rfl
  | placeholder => exact Numbers.advance.bind fun _ => .node fun _ => rfl
  | function =>
      refine Numbers.advance.bind fun _ =>
        (Numbers.all_items (fun _ => rfl) param_numbers).bind fun params =>
        (Numbers.expect .arrow).bind fun _ => (hoperand .function _).bind fun body =>
        .node fun id => ?_
      simp only [Tree.postorder, List.append_assoc, List.map_eq_flatMap]
  | letIn =>
      refine Numbers.advance.bind fun _ =>
        (Numbers.all_items (fun _ => rfl) (let_item_numbers hoperand)).bind fun items =>
        (Numbers.expect .inWord).bind fun _ => (hoperand .letIn _).bind fun body =>
        .node fun id => ?_
      simp only [Tree.postorder, List.append_assoc, Item.list_postorder_eq]
  | record =>
      refine Numbers.advance.bind fun _ =>
        (Numbers.all_items (fun _ => rfl) (record_item_numbers hoperand)).bind fun items =>
        (Numbers.expect .closeCurly).bind fun _ => .node fun id => ?_
      simp only [Tree.postorder, List.append_assoc, Item.list_postorder_eq]
  | group =>
      exact Numbers.advance.bind fun _ =>
        ((hoperand .lowest given).recovering fun _ => rfl).bind fun _ =>
        (Numbers.expect .closeParen).bind fun _ => .node fun _ => (List.append_assoc ..).symm
  | sign =>
      exact Numbers.advance.bind fun _ => (hoperand .additive given).bind fun _ =>
        .node fun _ => (List.append_assoc ..).symm

/-- What continues an expression has an identity after those of its operand. -/
theorem parse_infix_numbers (power : Power) (rule : InfixRule) (given : List NodeId) :
    Numbers (parseInfix stream operand power rule) given fun continuation =>
      given ++ continuation.postorder := by
  cases rule with
  | binary =>
      exact Numbers.advance.bind fun _ => (hoperand power given).bind fun _ =>
        .node fun _ => (List.append_assoc ..).symm
  | apply => exact (hoperand .apply given).bind fun _ => .node fun _ => (List.append_assoc ..).symm

/-- An expression that continues a left operand has an identity after those of both. -/
theorem continue_from_numbers (grammar : Grammar) (floor : Power) (given : List NodeId)
    (left : Tree) (height : Nat) :
    Numbers (continueFrom stream grammar operand floor left height) (given ++ left.postorder)
      fun tree => given ++ tree.postorder := by
  induction left, height using continueFrom.induct with
  | case1 left height ih =>
      rw [continueFrom]
      refine Numbers.current_kind.bind fun kind => ?_
      split
      · exact .pure rfl
      · next power rule _ =>
          split
          · refine (parse_infix_numbers hoperand power rule _).bind fun continuation => ?_
            rw [List.append_assoc, ← Continuation.postorder_attach]
            by_cases hle : max height continuation.height + 1 ≤ maxHeight
            · simp only [dif_pos hle]
              exact ih continuation hle
            · simp only [dif_neg hle]
              exact .raise_here _
          · exact .pure rfl

end Layers

/-- An expression has an identity after those of its parts. -/
theorem expression_numbers (grammar : Grammar) (room : Nat) (floor : Power)
    (given : List NodeId) :
    Numbers (expression stream grammar room floor) given fun tree => given ++ tree.postorder := by
  -- operands are parsed with less room, whatever was taken before
  induction room generalizing floor given with
  | zero => exact .raise_here _
  | succ room ih =>
      refine .nested (Numbers.current.bind fun token => ?_)
      split
      · exact .raise _ _
      · next rule _ =>
          exact (parse_prefix_numbers ih rule given).bind fun left =>
            continue_from_numbers ih grammar floor given left left.height

end Parser

/-- The identities of a parsed tree increase from the parts of a node to the node and from left to
right. -/
theorem Tree.parse_with_postorder (grammar : Grammar) (stream : TokenStream) :
    (Tree.parseWith grammar stream).postorder.Pairwise (· < ·) := by
  have hprogram : Parser.Numbers (Parser.program stream grammar) [] Tree.postorder :=
    (Parser.expression_numbers grammar maxNesting .lowest []).bind fun tree =>
      (Parser.Numbers.expect .endOfInput).bind fun _ => .pure (List.nil_append _).symm
  have houtcome := hprogram {} ⟨.nil, fun _ hid => absurd hid List.not_mem_nil⟩
  unfold Tree.parseWith
  cases hcase : Parser.program stream grammar {} with
  | ok tree s =>
      rw [hcase] at houtcome
      exact houtcome.2.increasing
  | error f s => exact List.pairwise_singleton ..

/-- No two nodes of a parsed tree have the same identity. -/
theorem Tree.parse_ids_nodup (tokens : Array Token) : (Tree.parse tokens).ids.Nodup := by
  refine List.nodup_iff_count.2 fun id => Nat.le_trans (Tree.count_ids_le id _) ?_
  exact List.nodup_iff_count.1 ((Tree.parse_with_postorder .standard _).imp Nat.ne_of_lt) id

/-! ## Parameters -/

/-- The identities of the parameters of a node. -/
def Node.paramIds : Node → List NodeId
  | .tree (.function _ _ params _ _) => params.map Param.id
  | _ => []

mutual

/-- The identities of the parameters of a node stand in the postorder one after the other. -/
theorem Tree.param_ids_sublist (tree : Tree) :
    tree.Every fun node => node.paramIds.Sublist tree.postorder := by
  have hpart {part : Tree} {ids : List NodeId} (hsublist : part.postorder.Sublist ids)
      (h : part.Every fun node => node.paramIds.Sublist part.postorder) :
      part.Every fun node => node.paramIds.Sublist ids :=
    fun entry hentry => (h entry hentry).trans hsublist
  cases tree with
  | identifier | literal | placeholder | fault =>
      simp only [Tree.every_identifier, Tree.every_literal, Tree.every_placeholder,
        Tree.every_fault]
      exact List.nil_sublist _
  | paren own opener inner closer =>
      refine Tree.every_paren.2 ⟨List.nil_sublist _, hpart ?_ inner.param_ids_sublist⟩
      exact List.sublist_append_left ..
  | letIn own letToken items inToken body =>
      refine Tree.every_let_in.2 ⟨List.nil_sublist _, ?_, hpart ?_ body.param_ids_sublist⟩
      · refine Item.list_param_ids_sublist Node.ofBinding (fun item => by cases item <;> rfl) ?_
        exact (List.sublist_append_left ..).trans (List.sublist_append_left ..)
      · exact (List.sublist_append_right ..).trans (List.sublist_append_left ..)
  | function own fnToken params arrow body =>
      refine Tree.every_function.2 ⟨?_, hpart ?_ body.param_ids_sublist⟩
      · exact (List.sublist_append_left ..).trans (List.sublist_append_left ..)
      · exact (List.sublist_append_right ..).trans (List.sublist_append_left ..)
  | record own opener items closer =>
      refine Tree.every_record.2 ⟨List.nil_sublist _, ?_⟩
      refine Item.list_param_ids_sublist Node.ofField (fun item => by cases item <;> rfl) ?_
      exact List.sublist_append_left ..
  | unary own operator operand =>
      refine Tree.every_unary.2 ⟨List.nil_sublist _, hpart ?_ operand.param_ids_sublist⟩
      exact List.sublist_append_left ..
  | binary own left operator right =>
      refine Tree.every_binary.2 ⟨List.nil_sublist _, hpart ?_ left.param_ids_sublist,
        hpart ?_ right.param_ids_sublist⟩
      · exact (List.sublist_append_left ..).trans (List.sublist_append_left ..)
      · exact (List.sublist_append_right ..).trans (List.sublist_append_left ..)
  | apply own callee argument =>
      refine Tree.every_apply.2 ⟨List.nil_sublist _, hpart ?_ callee.param_ids_sublist,
        hpart ?_ argument.param_ids_sublist⟩
      · exact (List.sublist_append_left ..).trans (List.sublist_append_left ..)
      · exact (List.sublist_append_right ..).trans (List.sublist_append_left ..)

/-- The identities of the parameters below an item stand in the postorder of its list. -/
theorem Item.list_param_ids_sublist (toNode : Item → Node)
    (hnode : ∀ item, (toNode item).paramIds = []) {items : List Item} {ids : List NodeId}
    (hsublist : (Item.listPostorder items).Sublist ids) :
    ∀ item ∈ items, item.Every toNode fun node => node.paramIds.Sublist ids := by
  cases items with
  | nil => exact fun _ hmem => absurd hmem List.not_mem_nil
  | cons item items =>
      have hrest : (Item.listPostorder items).Sublist ids :=
        (List.sublist_append_right ..).trans hsublist
      refine List.forall_mem_cons.2 ⟨?_, Item.list_param_ids_sublist toNode hnode hrest⟩
      have hown {item : Item} : (toNode item).paramIds.Sublist ids :=
        hnode item ▸ List.nil_sublist _
      cases item with
      | fault f => exact hown
      | definition id name equals value =>
          refine ⟨hown, fun entry hentry => (value.param_ids_sublist entry hentry).trans ?_⟩
          refine .trans ?_ hsublist
          exact (List.sublist_append_left ..).trans (List.sublist_append_left ..)

end

/-- The identities of declared parameters are among those of all parameters. -/
theorem Param.declared_ids_sublist (params : List Param) :
    ((params.filterMap Param.declared?).map (·.1)).Sublist (params.map Param.id) := by
  induction params with
  | nil => exact .slnil
  | cons param params ih =>
      cases param with
      | name id token => exact ih.cons_cons id
      | fault f => exact ih.cons f.id

/-- The declared parameters of a function in a parsed tree have distinct identities. -/
theorem Tree.parse_params_nodup {tokens : Array Token} {depth : Nat} {id : NodeId}
    {fnToken arrow : Token} {params : List Param} {body : Tree}
    (h : (depth, .tree (.function id fnToken params arrow body)) ∈ (Tree.parse tokens).nodes) :
    ((params.filterMap Param.declared?).map (·.1)).Nodup := by
  have hsublist := (Tree.parse tokens).param_ids_sublist _ h
  have hnodup : (Tree.parse tokens).postorder.Nodup :=
    (Tree.parse_with_postorder .standard _).imp Nat.ne_of_lt
  exact hnodup.sublist ((Param.declared_ids_sublist params).trans hsublist)

end LetScript
