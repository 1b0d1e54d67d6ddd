import LetScript.Proofs.Parser.Barrier
import LetScript.Proofs.Parser.Completeness
import LetScript.Proofs.Parser.Recovery

/-!
# Parsers inside constructs that wait

What a parser does with tokens that it does not accept depends on the kinds that the constructs
around it wait for, since a fault skips to a token of one of them. `AcceptsAwaiting` says what a
parser gives while some kinds are awaited, and `RaisesAwaiting` that it raises a fault there and
what is ahead after it. The construct that waits for the next token takes the fault
(`RaisesAwaiting.recovering`), so a list of items goes on after a faulty one: the other items are
found as they are (`items_around_accept`). `GivesAwaiting` says less: a parser may raise a fault,
but what it gives has a property.
-/

namespace LetScript

/-- The constructs with a list of items. -/
inductive Block where
  | letIn
  | record

/-- The kind of token that ends the items. -/
def Block.terminator : Block → Kind
  | letIn => .inWord
  | record => .closeCurly

/-- The power above which the definitions are continued. -/
def Block.power : Block → Power
  | letIn => .letIn
  | record => .record

/-- The kinds of tokens that open or end a block or an item. -/
def Block.delimiters (block : Block) : List Kind :=
  [.letWord, .openCurly, .semicolon, block.terminator]

/-- No block ends at a blank token, at the name of an item or at its semicolon. -/
theorem Block.terminator_ne (block : Block) :
    block.terminator ≠ .blank ∧ block.terminator ≠ .identifier ∧
      .semicolon ≠ block.terminator := by
  cases block <;> decide

namespace Parser

/-- From every state with the tokens `before` ahead in which constructs wait for some kinds, a
parser gives a result with the property `Q`, leaves the tokens `after` ahead, and the constructs
still wait. -/
def AcceptsAwaiting {α : Type} (stream : TokenStream) (stop : Nat) (kinds : List Kind)
    (p : Parse α) (before after : List Token) (Q : α → Prop) : Prop :=
  ∀ s : State, s.Ready → s.awaited.map Awaited.kind = kinds → Ahead stream stop s.pos before →
    ∃ result s', p s = .ok result s' ∧ Follows stream s s' ∧ Ahead stream stop s'.pos after ∧
      Q result

variable {α β : Type} {stream : TokenStream} {stop : Nat} {kinds : List Kind}
  {before middle after : List Token} {Q : α → Prop} {R : β → Prop}

/-- What a parser with a contract accepts from any state it accepts where constructs wait. -/
theorem Accepts.awaiting {p : Parse α} {S : Reading α} (h : Accepts stream stop p before after Q)
    (hp : Parses stream p S) (kinds : List Kind) :
    AcceptsAwaiting stream stop kinds p before after Q := by
  intro s hs _ hahead
  obtain ⟨result, s', hrun, hahead', hresult⟩ := h s hahead
  have houtcome := hp s hs
  rw [hrun] at houtcome
  exact ⟨result, s', hrun, houtcome.1, hahead', hresult⟩

namespace AcceptsAwaiting

/-- A parser after another one accepts what the two accept. -/
theorem bind {p : Parse α} {f : α → Parse β}
    (hp : AcceptsAwaiting stream stop kinds p before middle Q)
    (hf : ∀ value, Q value → AcceptsAwaiting stream stop kinds (f value) middle after R) :
    AcceptsAwaiting stream stop kinds (p >>= f) before after R := by
  intro s hs hkinds hahead
  obtain ⟨value, s', hrun, hfollows, hahead', hvalue⟩ := hp s hs hkinds hahead
  obtain ⟨result, s'', hrun', hfollows', hahead'', hresult⟩ :=
    hf value hvalue s' (hfollows.ready hs) (hfollows.awaited_eq ▸ hkinds) hahead'
  exact ⟨result, s'', (bind_of_ok hrun).trans hrun', hfollows.trans hfollows', hahead'', hresult⟩

/-- A weaker property of the result is accepted too. -/
theorem mono {p : Parse α} {Q' : α → Prop} (h : AcceptsAwaiting stream stop kinds p before after Q)
    (hQ : ∀ result, Q result → Q' result) :
    AcceptsAwaiting stream stop kinds p before after Q' := by
  intro s hs hkinds hahead
  obtain ⟨result, s', hrun, hfollows, hahead', hresult⟩ := h s hs hkinds hahead
  exact ⟨result, s', hrun, hfollows, hahead', hQ result hresult⟩

/-- A value without a step is accepted wherever it has the property. -/
theorem pure {value : α} (h : Q value) :
    AcceptsAwaiting stream stop kinds (Pure.pure value) before before Q :=
  fun s _ _ hahead => ⟨value, s, rfl, .refl stream s, hahead, h⟩

/-- One more expression accepts what is accepted inside it. -/
theorem nested {p : Parse α} (h : AcceptsAwaiting stream stop kinds p before after Q) :
    AcceptsAwaiting stream stop kinds (nested p) before after Q := by
  intro s hs hkinds hahead
  have hentered := Follows.nesting stream s (s.nesting + 1)
  obtain ⟨result, s', hrun, hfollows, hahead', hresult⟩ :=
    h { s with nesting := s.nesting + 1 } (hentered.ready hs) hkinds hahead
  refine ⟨result, { s' with nesting := s'.nesting - 1 }, ?_,
    (hentered.trans hfollows).trans (.nesting stream s' _), hahead', hresult⟩
  rw [Parser.nested, hrun]

/-- A part that waits for its terminator as well accepts what it accepts without a fault. -/
theorem recovering {kind : Kind} (hblank : kind ≠ .blank) (ofFault : Fault → α) {body : Parse α}
    (h : AcceptsAwaiting stream stop (kind :: kinds) body before after Q) :
    AcceptsAwaiting stream stop kinds (Parser.recovering stream kind ofFault body) before after
      Q := by
  intro s hs hkinds hahead
  obtain ⟨result, s', hrun, hfollows, hahead', hresult⟩ :=
    h { s with awaited := ⟨kind, s.pos⟩ :: s.awaited } (hs.await hblank)
      (congrArg (List.cons kind) hkinds) hahead
  obtain ⟨hrun', hfollows'⟩ := recovering_of_ok ofFault hrun hfollows
  exact ⟨result, _, hrun', hfollows', hahead', hresult⟩

/-- An item that takes some of the tokens ahead is followed by the other items. -/
theorem items_until {terminator : Kind} {ofFault : Fault → α} {item : Parse α} {items : List α}
    {S : List α → Prop} (hne : Token.upcoming before ≠ terminator)
    (hitem : AcceptsAwaiting stream stop kinds (Parser.recovering stream terminator ofFault item)
      before middle Q)
    (hlength : middle.length < before.length)
    (hmore : ∀ found, Q found → AcceptsAwaiting stream stop kinds
      (itemsUntil stream terminator ofFault item (found :: items)) middle after S) :
    AcceptsAwaiting stream stop kinds (itemsUntil stream terminator ofFault item items) before after
      S := by
  intro s hs hkinds hahead
  have hkind : stream.kindAt (stream.significant s.pos) ≠ terminator := by
    rw [← hahead.next_kind] at hne
    exact hne
  have hsignificant := Follows.significant stream s
  obtain ⟨found, s', hrun, hfollows, hahead', hfound⟩ :=
    hitem { s with pos := stream.significant s.pos } (hsignificant.ready hs) hkinds
      hahead.significant
  have hfollows' := hsignificant.trans hfollows
  obtain ⟨results, s'', hrun', hfollows'', hahead'', hresults⟩ :=
    hmore found hfound s' (hfollows'.ready hs) (hfollows'.awaited_eq ▸ hkinds) hahead'
  refine ⟨results, s'', ?_, hfollows'.trans hfollows'', hahead'', hresults⟩
  rw [itemsUntil, if_neg hkind, hrun]
  simp only [if_pos (hahead.remaining_lt hahead' hlength)]
  exact hrun'

end AcceptsAwaiting

/-- A part takes the fault that leads to the token that it waits for. The fault has skipped all
tokens before. -/
theorem recovering_takes {kind : Kind} (hblank : kind ≠ .blank) (ofFault : Fault → α)
    {body : Parse α} {closer : Token} {w rest : List Token} (hcloser : closer.kind = kind)
    {s s' : State} {fault : Fault} (hs : s.Ready)
    (hahead : Ahead stream stop s.pos (w ++ closer :: rest))
    (hrun : body { s with awaited := ⟨kind, s.pos⟩ :: s.awaited } = .error fault s')
    (hunwound : Unwound stream { s with awaited := ⟨kind, s.pos⟩ :: s.awaited } fault s')
    (hahead' : Ahead stream stop s'.pos (closer :: rest)) :
    recovering stream kind ofFault body s = .ok (ofFault fault) s' ∧ Follows stream s s' ∧
      Token.significant fault.skipped = w := by
  have hkind : stream.kindAt s'.pos = kind := by
    have hnext := hahead'.of_cons.1
    rw [TokenStream.next_of_ne (hunwound.kind_ne_blank (hs.await hblank))] at hnext
    exact (congrArg Token.kind hnext).trans hcloser
  obtain ⟨hresult, hfollows, hskipped⟩ :=
    (recovering_of_error hblank ofFault hs hrun hunwound).1 hkind
  have hwindow := (hahead'.before hfollows.passes).window_eq.symm.trans hahead.window_eq
  refine ⟨hresult, hfollows, ?_⟩
  rw [hskipped]
  exact List.append_cancel_right hwindow

/-- From every state with the tokens `before` ahead in which constructs wait for some kinds, a
parser raises a fault that leads to the tokens `after`. -/
def RaisesAwaiting {α : Type} (stream : TokenStream) (stop : Nat) (kinds : List Kind)
    (p : Parse α) (before after : List Token) : Prop :=
  ∀ s : State, s.Ready → s.awaited.map Awaited.kind = kinds → Ahead stream stop s.pos before →
    ∃ fault s', p s = .error fault s' ∧ Unwound stream s fault s' ∧ Ahead stream stop s'.pos after

namespace RaisesAwaiting

/-- What comes after a fault is not reached. -/
theorem bind {p : Parse α} {f : α → Parse β} (h : RaisesAwaiting stream stop kinds p before after) :
    RaisesAwaiting stream stop kinds (p >>= f) before after := by
  intro s hs hkinds hahead
  obtain ⟨fault, s', hrun, hunwound, hahead'⟩ := h s hs hkinds hahead
  exact ⟨fault, s', bind_of_error hrun, hunwound, hahead'⟩

/-- A fault is raised after what was accepted before. -/
theorem after_accepts {p : Parse α} {f : α → Parse β}
    (hp : AcceptsAwaiting stream stop kinds p before middle Q)
    (hf : ∀ value, Q value → RaisesAwaiting stream stop kinds (f value) middle after) :
    RaisesAwaiting stream stop kinds (p >>= f) before after := by
  intro s hs hkinds hahead
  obtain ⟨value, s', hrun, hfollows, hahead', hvalue⟩ := hp s hs hkinds hahead
  obtain ⟨fault, s'', hrun', hunwound, hahead''⟩ :=
    hf value hvalue s' (hfollows.ready hs) (hfollows.awaited_eq ▸ hkinds) hahead'
  exact ⟨fault, s'', (bind_of_ok hrun).trans hrun', .of_follows hfollows hunwound, hahead''⟩

/-- Another token than the expected one raises a fault, which leads to the first token ahead that is
awaited. -/
theorem expect {kind : Kind} {next closer : Token} {w rest : List Token} (hne : next.kind ≠ kind)
    (hcloser : closer.kind ∈ kinds) (hfree : ∀ token ∈ next :: w, token.kind ∉ kinds) :
    RaisesAwaiting stream stop kinds (Parser.expect stream kind) (next :: (w ++ closer :: rest))
      (closer :: rest) := by
  rintro s hs rfl hahead
  have hnext : (stream.get (stream.significant s.pos)).kind ≠ kind := by
    rw [← hahead.of_cons.1] at hne
    exact hne
  obtain ⟨pos, hpasses, hwindow, rfl, hblank, hahead'⟩ :=
    Ahead.split (w := next :: w) hahead
  -- the fault stops at the closer at the latest, and no token before it is awaited
  have hle := TokenStream.skip_to_le (TokenStream.significant_le hpasses.le hblank) hcloser
  have houtcome : Accords stream _ s (Parser.expect stream kind s) := expect_parses kind s hs
  have hrun : Parser.expect stream kind s =
      raise stream (.unexpectedToken kind.name (stream.next s.pos).value) (stream.next s.pos)
        { s with pos := stream.significant s.pos } := by
    unfold Parser.expect
    change EStateM.bind (current stream) _ s = _
    simp only [EStateM.bind, current, if_neg hnext, TokenStream.next]
  rw [hrun] at houtcome
  have hpos := Unwound.pos_eq houtcome hs hpasses hle (hwindow ▸ hfree)
  refine ⟨_, _, hrun, houtcome, ?_⟩
  rw [hpos]
  exact hahead'

/-- A part that waits for the token to which its fault leads gives the fault, which has skipped all
tokens before. -/
theorem recovering {kind : Kind} (hblank : kind ≠ .blank) (ofFault : Fault → α) {body : Parse α}
    {closer : Token} {w rest : List Token} (hcloser : closer.kind = kind)
    (h : RaisesAwaiting stream stop (kind :: kinds) body (w ++ closer :: rest) (closer :: rest)) :
    AcceptsAwaiting stream stop kinds (Parser.recovering stream kind ofFault body)
      (w ++ closer :: rest) (closer :: rest)
      fun result => ∃ fault, result = ofFault fault ∧ Token.significant fault.skipped = w := by
  intro s hs hkinds hahead
  obtain ⟨fault, s', hrun, hunwound, hahead'⟩ :=
    h { s with awaited := ⟨kind, s.pos⟩ :: s.awaited } (hs.await hblank)
      (congrArg (List.cons kind) hkinds) hahead
  obtain ⟨hresult, hfollows, hskipped⟩ :=
    recovering_takes hblank ofFault hcloser hs hahead hrun hunwound hahead'
  exact ⟨ofFault fault, s', hresult, hfollows, hahead', fault, rfl, hskipped⟩

end RaisesAwaiting

/-- A parser gives no result without the property `Q`. -/
def Gives {α : Type} (p : Parse α) (Q : α → Prop) : Prop :=
  ∀ s result s', p s = .ok result s' → Q result

/-- From every state with the tokens `before` ahead in which constructs wait for some kinds, a
parser gives no result without the property `Q`. -/
def GivesAwaiting {α : Type} (stream : TokenStream) (stop : Nat) (kinds : List Kind) (p : Parse α)
    (before : List Token) (Q : α → Prop) : Prop :=
  ∀ s : State, s.Ready → s.awaited.map Awaited.kind = kinds → Ahead stream stop s.pos before →
    ∀ result s', p s = .ok result s' → Q result

/-- A parser gives what the second of its parts gives. -/
theorem Gives.bind {p : Parse α} {f : α → Parse β} (h : ∀ value, Gives (f value) R) :
    Gives (p >>= f) R := by
  intro s result s'' hrun
  obtain ⟨value, s', -, hrun'⟩ := exists_of_bind_ok hrun
  exact h value s' result s'' hrun'

/-- A value without a step is given. -/
theorem Gives.pure {value : α} (h : Q value) : Gives (Pure.pure value) Q := by
  rintro s _ s' ⟨rfl⟩
  exact h

/-- Nothing is given where a fault is raised. -/
theorem Gives.raise (cause : Cause) (token : Token) : Gives (raise stream cause token) Q := by
  intro s result s' hrun
  cases hrun

/-- A node is given whatever its identity is. -/
theorem Gives.node {node : NodeId → α} (h : ∀ id, Q (node id)) :
    Gives (freshId >>= fun id => Pure.pure (node id)) Q :=
  .bind fun id => .pure (h id)

/-- What a parser gives from any state it gives where constructs wait. -/
theorem Gives.awaiting {p : Parse α} (h : Gives p Q) (before : List Token) :
    GivesAwaiting stream stop kinds p before Q :=
  fun s _ _ _ => h s

/-- A continued expression is what was there before, or a continuation was attached last. -/
theorem continue_from_gives (operand : Power → Parse Tree) (floor : Power) (left : Tree)
    (height : Nat) :
    Gives (continueFrom stream .standard operand floor left height) fun tree =>
      tree = left ∨ ∃ left' continuation, tree = Continuation.attach left' continuation := by
  induction left, height using continueFrom.induct with
  | case1 left height ih =>
      rw [continueFrom]
      refine .bind fun kind => ?_
      cases Grammar.standard.infixRule kind with
      | none => exact .pure (.inl rfl)
      | some found =>
          obtain ⟨power, rule⟩ := found
          by_cases hlt : floor < power
          · simp only [if_pos hlt]
            refine .bind fun continuation => ?_
            by_cases hmax : max height continuation.height + 1 ≤ maxHeight
            · simp only [dif_pos hmax]
              intro s tree s' hrun
              rcases ih continuation hmax s tree s' hrun with rfl | hattached
              · exact .inr ⟨left, continuation, rfl⟩
              · exact .inr hattached
            · simp only [dif_neg hmax]
              exact .bind fun token => .raise _ token
          · simp only [if_neg hlt]
            exact .pure (.inl rfl)

namespace GivesAwaiting

/-- A result is given after what was accepted before. -/
theorem after_accepts {p : Parse α} {f : α → Parse β}
    (hp : AcceptsAwaiting stream stop kinds p before middle Q)
    (hf : ∀ value, Q value → GivesAwaiting stream stop kinds (f value) middle R) :
    GivesAwaiting stream stop kinds (p >>= f) before R := by
  intro s hs hkinds hahead result s'' hrun
  obtain ⟨value, s', hfirst, hfollows, hahead', hvalue⟩ := hp s hs hkinds hahead
  rw [bind_of_ok hfirst] at hrun
  exact hf value hvalue s' (hfollows.ready hs) (hfollows.awaited_eq ▸ hkinds) hahead' result s''
    hrun

/-- A result is given after another one. -/
theorem bind {p : Parse α} {f : α → Parse β} (hp : GivesAwaiting stream stop kinds p before Q)
    (hf : ∀ value, Q value → Gives (f value) R) :
    GivesAwaiting stream stop kinds (p >>= f) before R := by
  intro s hs hkinds hahead result s'' hrun
  obtain ⟨value, s', hfirst, hrun'⟩ := exists_of_bind_ok hrun
  exact hf value (hp s hs hkinds hahead value s' hfirst) s' result s'' hrun'

/-- One more expression gives what is given inside it. -/
theorem nested {p : Parse α} (h : GivesAwaiting stream stop kinds p before Q) :
    GivesAwaiting stream stop kinds (nested p) before Q := by
  intro s hs hkinds hahead result s'' hrun
  have houtcome := h { s with nesting := s.nesting + 1 }
    ((Follows.nesting stream s _).ready hs) hkinds hahead
  unfold Parser.nested at hrun
  cases hcase : p { s with nesting := s.nesting + 1 } with
  | ok found s' =>
      rw [hcase] at hrun
      cases hrun
      exact houtcome result s' hcase
  | error fault s' =>
      rw [hcase] at hrun
      cases hrun

end GivesAwaiting

/-! ## Items of a block -/

/-- Parse an item of a block that no other expression is around. -/
def blockItem (stream : TokenStream) : Block → Parse Item
  | .letIn => letItem stream (expression stream .standard (maxNesting - 1))
  | .record => recordItem stream (expression stream .standard (maxNesting - 1))

/-- Operands meet a contract that says nothing about them. -/
theorem operand_parses (room : Nat) (power : Power) :
    Parses stream (expression stream .standard room power) fun _ _ _ _ => True :=
  expression_parses (Session.Call.trivial_interpretation .standard) room power

section Items

variable (block : Block)

/-- How the items of a block are read. -/
def blockReading : Block → Reading Item
  | .letIn => Reading.LetItem fun _ _ _ _ => True
  | .record => Reading.RecordItem fun _ _ _ _ => True

/-- The items of a block are read one by one. -/
theorem block_item_parses : Parses stream (blockItem stream block) (blockReading block) := by
  cases block with
  | letIn => exact let_item_parses (operand_parses _)
  | record => exact record_item_parses (operand_parses _)

/-- The items of a block are read up to its terminator. -/
theorem block_items_parse (items : List Item) :
    Parses stream (itemsUntil stream block.terminator .fault (blockItem stream block) items)
      fun _ _ _ _ => True := by
  have hprogress (first : Token) (result : Item) (next : Token) (_ : first.kind ≠ block.terminator)
      (h : blockReading block first result [] next) : next.kind = block.terminator := by
    cases block with
    | letIn => exact Reading.LetItem.progress h
    | record => exact Reading.RecordItem.progress h
  have hitems : Parses stream
      (itemsUntil stream block.terminator .fault (blockItem stream block) items) _ := fun s hs =>
    items_until_accords block.terminator_ne.1 .fault (block_item_parses block) hprogress items s hs
  exact hitems.mono fun _ _ _ _ _ => trivial

variable {block} {item : Item} {semicolon : Token} {w rest : List Token}

/-- An item of a block is accepted with the semicolon after it. -/
theorem block_item_accepts (hderives : item.Derives w) (hfree : item.FaultFree)
    (hregular : item.Regular block.power (maxNesting - 1))
    (hsemicolon : semicolon.kind = .semicolon) :
    Accepts stream stop (blockItem stream block) (w ++ semicolon :: rest) rest
      fun found => found.withoutIds = item.withoutIds := by
  cases block with
  | letIn => exact let_item_accepts (expression_accepts _) hderives hfree hregular hsemicolon
  | record => exact record_item_accepts (expression_accepts _) hderives hfree hregular hsemicolon

end Items

section Around

variable {block : Block} {before after : List Item} {w g middle last : List Token}

/-- Definitions without faults, each with its semicolon, are followed by the items after them. -/
theorem items_before_accept (hderives : Item.RecordDerives before w)
    (hfree : ∀ wanted ∈ before, wanted.FaultFree)
    (hregular : ∀ wanted ∈ before, wanted.Regular block.power (maxNesting - 1))
    (found : List Item) {S : List Item → Prop}
    (hmore : ∀ found', found'.reverse.map Item.withoutIds =
        (found.reverse ++ before).map Item.withoutIds →
      AcceptsAwaiting stream stop kinds
        (itemsUntil stream block.terminator .fault (blockItem stream block) found') middle last S) :
    AcceptsAwaiting stream stop kinds
      (itemsUntil stream block.terminator .fault (blockItem stream block) found) (w ++ middle) last
      S := by
  induction before generalizing w found with
  | nil =>
      cases hderives
      exact hmore found (by rw [List.append_nil])
  | cons wanted before ih =>
      obtain ⟨hfirst, hothers⟩ := List.forall_mem_cons.1 hfree
      obtain ⟨hshape, hshapes⟩ := List.forall_mem_cons.1 hregular
      obtain ⟨hblank, hname, -⟩ := block.terminator_ne
      cases hderives with
      | last => exact hfirst.elim
      | @cons _ _ semicolon w w' hwanted hsemicolon hbefore =>
          rw [List.append_assoc, List.cons_append]
          refine .items_until ?_ ((recovering_accepts block.terminator .fault
            (block_item_accepts hwanted hfirst hshape hsemicolon)).awaiting
            (recovering_parses hblank .fault (block_item_parses block)) kinds) ?_
            fun result hresult => ih hbefore hothers hshapes (result :: found)
              fun found' h => hmore found' (h.trans ?_)
          · rw [upcoming_of_item hwanted hfirst]
            exact hname.symm
          · simp only [List.length_append, List.length_cons]
            omega
          · simp [hresult]

variable (block) in
/-- The items around one that is accepted with a property are found as they are. -/
theorem items_around_accept (hderives : Item.RecordDerives before w)
    (hfree : ∀ wanted ∈ before, wanted.FaultFree)
    (hregular : ∀ wanted ∈ before, wanted.Regular block.power (maxNesting - 1))
    (hne : Token.upcoming g ≠ block.terminator) {Q : Item → Prop}
    (hother : AcceptsAwaiting stream stop kinds
      (recovering stream block.terminator .fault (blockItem stream block)) g middle Q)
    (hlength : middle.length < g.length)
    (hafter : Series stream stop block.terminator (blockItem stream block) Item.withoutIds after
      middle last) :
    AcceptsAwaiting stream stop kinds
      (itemsUntil stream block.terminator .fault (blockItem stream block) []) (w ++ g) last
      fun found => ∃ other, Q other ∧
        found.map Item.withoutIds = (before ++ other :: after).map Item.withoutIds := by
  refine items_before_accept hderives hfree hregular [] fun found hfound => ?_
  refine .items_until hne hother hlength fun other hother => ?_
  refine ((items_until_accepts .fault hafter (other :: found)).awaiting
    (block_items_parse block (other :: found)) kinds).mono ?_
  intro results hresults
  refine ⟨other, hother, hresults.trans ?_⟩
  simp [hfound]

end Around

/-! ## Programs -/

/-- A program that starts with a token is accepted if the rule of this token accepts all of it. -/
theorem program_start_accepts {rule : PrefixRule} {first : Token} {w : List Token}
    {Q : Tree → Prop} (hrule : Grammar.standard.prefixRule first.kind = some rule)
    (h : AcceptsAwaiting stream stop kinds
      (parsePrefix stream (expression stream .standard (maxNesting - 1)) rule) (first :: w) [] Q) :
    AcceptsAwaiting stream stop kinds (program stream .standard) (first :: w) [] Q := by
  have hexpression : AcceptsAwaiting stream stop kinds
      (expression stream .standard (maxNesting - 1 + 1) .lowest) (first :: w) [] Q := by
    rw [expression]
    refine .nested ((current_accepts.awaiting current_parses kinds).bind fun token htoken => ?_)
    rw [htoken]
    simp only [hrule]
    refine h.bind fun left hleft => ?_
    refine ((continue_from_stops left left.height (Nat.zero_le _)).awaiting
      (continue_from_parses (Session.Call.trivial_interpretation .standard) (maxNesting - 1)
        (operand_parses (maxNesting - 1)) .lowest left left.height rfl) kinds).mono ?_
    rintro tree rfl
    exact hleft
  exact hexpression.bind fun tree htree =>
    (expect_end_accepts.awaiting (expect_parses _) kinds).bind fun _ _ => .pure htree

/-- A program that starts with a token has a property if the rule of this token gives it, and if all
expressions have it that a continuation is attached to. -/
theorem program_start_gives {rule : PrefixRule} {first : Token} {w : List Token} {Q : Tree → Prop}
    (hrule : Grammar.standard.prefixRule first.kind = some rule)
    (h : GivesAwaiting stream stop kinds
      (parsePrefix stream (expression stream .standard (maxNesting - 1)) rule) (first :: w) Q)
    (hattach : ∀ left continuation, Q (Continuation.attach left continuation)) :
    GivesAwaiting stream stop kinds (program stream .standard) (first :: w) Q := by
  have hexpression : GivesAwaiting stream stop kinds
      (expression stream .standard (maxNesting - 1 + 1) .lowest) (first :: w) Q := by
    rw [expression]
    refine .nested <| .after_accepts (current_accepts.awaiting current_parses kinds)
      fun token htoken => ?_
    rw [htoken]
    simp only [hrule]
    refine h.bind fun left hleft s tree s' hrun => ?_
    rcases continue_from_gives _ _ left left.height s tree s' hrun with rfl | ⟨left', _, rfl⟩
    · exact hleft
    · exact hattach left' _
  exact hexpression.bind fun tree htree => .bind fun _ => .pure htree

end Parser

/-- The tree of a token sequence is the one that its program is accepted with. -/
theorem Tree.parse_of_accepts {tokens : Array Token} {Q : Tree → Prop}
    (h : ∀ stop, Parser.AcceptsAwaiting (.ofTokens tokens) stop [.endOfInput]
      (Parser.program (.ofTokens tokens) .standard) (Token.program tokens) [] Q) :
    Q (Tree.parse tokens) := by
  obtain ⟨stop, hahead⟩ := TokenStream.ahead_of_tokens tokens
  obtain ⟨found, s', hrun, -, -, hfound⟩ := h stop {} Parser.State.ready_initial rfl hahead
  unfold Tree.parse Tree.parseWith
  rw [hrun]
  exact hfound

/-- The tree of a token sequence has a property if its program is given with it and all faults have
it. -/
theorem Tree.parse_of_gives {tokens : Array Token} {Q : Tree → Prop}
    (h : ∀ stop, Parser.GivesAwaiting (.ofTokens tokens) stop [.endOfInput]
      (Parser.program (.ofTokens tokens) .standard) (Token.program tokens) Q)
    (hfault : ∀ fault, Q (.fault fault)) : Q (Tree.parse tokens) := by
  obtain ⟨stop, hahead⟩ := TokenStream.ahead_of_tokens tokens
  unfold Tree.parse Tree.parseWith
  cases hrun : Parser.program (.ofTokens tokens) .standard {} with
  | ok tree s' => exact h stop {} Parser.State.ready_initial rfl hahead tree s' hrun
  | error fault s' => exact hfault fault

end LetScript
