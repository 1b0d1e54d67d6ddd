import LetScript.Parser.Expression
import LetScript.Proofs.Parser.Acceptance

/-!
# What happens while a parser runs

The parser of expressions is written here once more, with a log of what it does on the way: where
every step leaves the stream, from where to where an expression or a round of a loop was parsed, and
which trees were found low or too tall. Where a fault is raised out of an expression or out of a
round, this is noted as well, and the log is kept. Without the log it is the parser itself
(`Traced.program_traces`), so `Tree.history` says what happens while a token sequence is parsed.
How the height of a tree is checked is a parameter, since a parser may know heights in several ways.
-/

namespace LetScript

namespace Parser

/-- What a parser may be busy with: an expression, or one round of the loop over the continuations
of an expression, over parameters, or over the items of a let or a record. -/
inductive Activity where
  | expression
  | continuation
  | param
  | letItem
  | recordItem

/-- What may happen while a parser runs. -/
inductive Event where
  /-- A step was taken that has left the stream at a position. -/
  | moved (pos : Nat)
  /-- An activity that began at one position has ended: with a result at another one, or with a
  fault that is raised further. -/
  | ended (activity : Activity) (start : Nat) (stop : Option Nat)
  /-- A loop was stopped because a round of it has not brought the stream any further. -/
  | stalled (activity : Activity)
  /-- The height of a tree was checked, and the tree was found low enough or not. -/
  | checked (tree : Tree) (passed : Bool)

/-- What continues a tree of some height without making it too tall. -/
abbrev LowContinuation (height : Nat) :=
  { found : Continuation // max height found.height + 1 ≤ maxHeight }

/-- Find out whether a tree of known height stays low enough with what continues it. -/
def lowContinuation (stream : TokenStream) (height : Nat) (continuation : Continuation) :
    Parse (LowContinuation height) :=
  if hle : max height continuation.height + 1 ≤ maxHeight then Pure.pure ⟨continuation, hle⟩
  else raiseHere stream (.nestingTooDeep maxHeight)

/-- The state of a parser and what has happened so far, the latest first. -/
structure Log where
  state : State := {}
  events : List Event := []

namespace Log

/-- Write down an event. -/
def note (event : Event) (log : Log) : Log := { log with events := event :: log.events }

/-- Go to a state by a step. -/
def move (state : State) (log : Log) : Log :=
  { state, events := .moved state.pos :: log.events }

end Log

/-- A step of a parser that keeps a log. The log is kept when a fault is raised. -/
abbrev Traced (α : Type) := EStateM Fault Log α

namespace Traced

/-- Take a step of the plain parser. -/
def step {α : Type} (p : Parse α) : Traced α := fun log =>
  match p log.state with
  | .ok result s => .ok result (log.move s)
  | .error fault s => .error fault (log.move s)

/-- Write down an event. -/
def note (event : Event) : Traced Unit := fun log => .ok () (log.note event)

/-- Run a parser and write down from where to where it went. -/
def during {α : Type} (activity : Activity) (p : Traced α) : Traced α := fun log =>
  match p log with
  | .ok result log' =>
    .ok result (log'.note (.ended activity log.state.pos (some log'.state.pos)))
  | .error fault log' => .error fault (log'.note (.ended activity log.state.pos none))

variable (stream : TokenStream)

/-- Raise a fault at the current token. -/
def raiseHere {α : Type} (cause : Cause) : Traced α := do
  step (raise stream cause (← step (current stream)))

/-- Pass a token of the given kind, or raise a fault without passing anything. -/
def expect (kind : Kind) : Traced Token := do
  let token ← step (current stream)
  if token.kind = kind then step (advance stream)
  else step (raise stream (.unexpectedToken kind.name token.value) token)

/-- Run a parser while waiting for a kind of token. -/
def recovering {α : Type} (kind : Kind) (ofFault : Fault → α) (body : Traced α) : Traced α :=
  fun log =>
    match body { log with
      state := { log.state with awaited := ⟨kind, log.state.pos⟩ :: log.state.awaited } } with
    | .ok result log =>
      .ok result { log with state := { log.state with awaited := log.state.awaited.tail } }
    | .error fault log =>
      let pos := stream.significant log.state.pos
      if stream.kindAt pos = kind then .ok (ofFault fault) (log.move { log.state with pos })
      else .error fault (log.move { log.state with pos })

/-- What holds of the outcome while a kind of token is awaited holds afterwards, if it does not
depend on the awaited kinds, and if a fault may be raised further or become the result. -/
theorem outcome_recovering {α : Type} {kind : Kind} {ofFault : Fault → α} {body : Traced α}
    {P : EStateM.Result Fault Log α → Prop} {log : Log}
    (hok : ∀ result log awaited, P (.ok result log) →
      P (.ok result { log with state := { log.state with awaited } }))
    (herror : ∀ fault (log : Log), P (.error fault log) →
      P (.error fault (log.move { log.state with pos := stream.significant log.state.pos })))
    (htaken : ∀ fault (log : Log), P (.error fault log) →
      P (.ok (ofFault fault)
        (log.move { log.state with pos := stream.significant log.state.pos })))
    (h : P (body { log with
      state := { log.state with awaited := ⟨kind, log.state.pos⟩ :: log.state.awaited } })) :
    P (recovering stream kind ofFault body log) := by
  unfold recovering
  revert h
  cases body { log with
      state := { log.state with awaited := ⟨kind, log.state.pos⟩ :: log.state.awaited } } with
  | ok result log' => exact hok result log' _
  | error fault log' =>
      intro h
      by_cases hkind : stream.kindAt (stream.significant log'.state.pos) = kind
      · simp only [if_pos hkind]
        exact htaken fault log' h
      · simp only [if_neg hkind]
        exact herror fault log' h

/-- Run a parser inside one more expression. -/
def nested {α : Type} (body : Traced α) : Traced α := fun log =>
  match body { log with state := { log.state with nesting := log.state.nesting + 1 } } with
  | .ok result log =>
    .ok result { log with state := { log.state with nesting := log.state.nesting - 1 } }
  | .error fault log =>
    .error fault { log with state := { log.state with nesting := log.state.nesting - 1 } }

/-- What holds of the outcome inside one more expression holds after it, if it does not depend on
the number of expressions that are being parsed. -/
theorem outcome_nested {α : Type} {body : Traced α} {P : EStateM.Result Fault Log α → Prop}
    {log : Log}
    (hok : ∀ result log nesting, P (.ok result log) →
      P (.ok result { log with state := { log.state with nesting } }))
    (herror : ∀ fault log nesting, P (.error fault log) →
      P (.error fault { log with state := { log.state with nesting } }))
    (h : P (body { log with state := { log.state with nesting := log.state.nesting + 1 } })) :
    P (nested body log) := by
  unfold nested
  revert h
  cases body { log with state := { log.state with nesting := log.state.nesting + 1 } } with
  | ok result log' => exact hok result log' _
  | error fault log' => exact herror fault log' _

/-- Parse items until the current token is the terminator, each in a round of its own. A fault that
is raised out of a round ends the loop. -/
def itemsUntil {α : Type} (activity : Activity) (terminator : Kind) (ofFault : Fault → α)
    (item : Traced α) (items : List α) (log : Log) : EStateM.Result Fault Log (List α) :=
  let pos := stream.significant log.state.pos
  if stream.kindAt pos = terminator then .ok items.reverse (log.move { log.state with pos })
  else
    match during activity (recovering stream terminator ofFault item)
      (log.move { log.state with pos }) with
    | .error fault log' => .error fault log'
    | .ok found log' =>
      if stream.remaining log'.state.pos < stream.remaining log.state.pos then
        itemsUntil activity terminator ofFault item (found :: items) log'
      else .ok (found :: items).reverse (log'.note (.stalled activity))
termination_by stream.remaining log.state.pos

/-- Parse `name = value`. -/
def definition (operand : Power → Traced Tree) (power : Power) : Traced Item := do
  let name ← expect stream .identifier
  let equals ← expect stream .equals
  let value ← operand power
  return .definition (← step freshId) name equals value

/-- Parse a definition in a let with the semicolon after it. -/
def letItem (operand : Power → Traced Tree) : Traced Item := do
  let item ← recovering stream .semicolon .fault (definition stream operand .letIn)
  if (← step (currentKind stream)) ≠ .inWord then
    let _ ← expect stream .semicolon
  return item

/-- Parse a definition in a record with the semicolon after it. -/
def recordItem (operand : Power → Traced Tree) : Traced Item := do
  let item ← recovering stream .semicolon .fault (definition stream operand .record)
  let _ ← expect stream .semicolon
  return item

/-- Parse a parameter of a function. -/
def param : Traced Param := do
  let token ← expect stream .identifier
  return .name (← step freshId) token

/-- Parse an expression by the rule of its first token. -/
def parsePrefix (operand : Power → Traced Tree) : PrefixRule → Traced Tree
  | .identifier => do
    let token ← step (advance stream)
    return .identifier (← step freshId) token
  | .literal => do
    let token ← step (current stream)
    match Binary64.read? token.value with
    | none => step (raise stream (.numberParseError token.value) token)
    | some value =>
      let token ← step (advance stream)
      return .literal (← step freshId) token value
  | .invalid => do
    let token ← step (advance stream)
    let diagnostic := token.diagnostic.getD ⟨.unrecognisedSymbol, token.span.start⟩
    return .fault { id := ← step freshId, diagnostic, token, skipped := [token] }
  | .placeholder => do
    let token ← step (advance stream)
    return .placeholder (← step freshId) token
  | .function => do
    let fnToken ← step (advance stream)
    let params ← itemsUntil stream .param .arrow .fault (param stream) []
    let arrow ← expect stream .arrow
    let body ← operand .function
    return .function (← step freshId) fnToken params arrow body
  | .letIn => do
    let letToken ← step (advance stream)
    let items ← itemsUntil stream .letItem .inWord .fault (letItem stream operand) []
    let inToken ← expect stream .inWord
    let body ← operand .letIn
    return .letIn (← step freshId) letToken items inToken body
  | .record => do
    let opener ← step (advance stream)
    let items ← itemsUntil stream .recordItem .closeCurly .fault (recordItem stream operand) []
    let closer ← expect stream .closeCurly
    return .record (← step freshId) opener items closer
  | .group => do
    let opener ← step (advance stream)
    let inner ← recovering stream .closeParen .fault (operand .lowest)
    let closer ← expect stream .closeParen
    return .paren (← step freshId) opener inner closer
  | .sign => do
    let operator ← step (advance stream)
    let operand ← operand .additive
    return .unary (← step freshId) operator operand

/-- Parse what continues an expression by the rule of the next token. -/
def parseInfix (operand : Power → Traced Tree) (power : Power) : InfixRule → Traced Continuation
  | .binary => do
    let operator ← step (advance stream)
    let right ← operand power
    return .binary (← step freshId) operator right
  | .apply => do
    let argument ← operand .apply
    return .apply (← step freshId) argument

/-- A check of the height of a tree of known height with what continues it. -/
abbrev HeightCheck :=
  (left : Tree) → (height : Nat) → Continuation → Traced (LowContinuation height)

/-- Check the height of a tree by the known heights of its parts. -/
def checkHeight : HeightCheck := fun left height continuation =>
  if hle : max height continuation.height + 1 ≤ maxHeight then do
    note (.checked (continuation.attach left) true)
    return ⟨continuation, hle⟩
  else do
    note (.checked (continuation.attach left) false)
    raiseHere stream (.nestingTooDeep maxHeight)

variable (grammar : Grammar) (check : HeightCheck)

/-- Continue an expression of known height for as long as the next token has a greater power than
`floor`, each time in a round of its own. -/
def continueFrom (operand : Power → Traced Tree) (floor : Power) (left : Tree) (height : Nat) :
    Traced Tree := do
  match grammar.infixRule (← step (currentKind stream)) with
  | none => return left
  | some (power, rule) =>
    if floor < power then
      let found ← during .continuation
        (parseInfix stream operand power rule >>= check left height)
      continueFrom operand floor (found.1.attach left) (max height found.1.height + 1)
    else return left
termination_by maxHeight - height
decreasing_by
  have := found.2
  have := Nat.le_max_left height found.1.height
  omega

/-- Parse an expression that is continued by the tokens above a power. -/
def expression : (room : Nat) → (floor : Power) → Traced Tree
  | 0, _ => during .expression (raiseHere stream (.nestingTooDeep maxNesting))
  | room + 1, floor => during .expression <| nested do
    let token ← step (current stream)
    match grammar.prefixRule token.kind with
    | none => step (raise stream (.cannotParseExpression token.value) token)
    | some rule =>
      let left ← parsePrefix stream (expression room) rule
      continueFrom stream grammar check (expression room) floor left left.height

/-- Parse a whole program: one expression and the end of input. -/
def program : Traced Tree := do
  let tree ← expression stream grammar check maxNesting .lowest
  let _ ← expect stream .endOfInput
  return tree

end Traced

/-! ## Forgetting the log -/

/-- An outcome without the log. -/
def Log.erase {α : Type} : EStateM.Result Fault Log α → EStateM.Result Fault State α
  | .ok result log => .ok result log.state
  | .error fault log => .error fault log.state

/-- Without its log a parser is a plain one. -/
def Traces {α : Type} (p : Traced α) (q : Parse α) : Prop :=
  ∀ log, Log.erase (p log) = q log.state

namespace Traces

variable {α β : Type} {stream : TokenStream} {p : Traced α} {q : Parse α}

/-- A result comes from a result of the plain parser. -/
theorem of_ok (h : Traces p q) {log log' : Log} {result : α} (hrun : p log = .ok result log') :
    q log.state = .ok result log'.state := by
  rw [← h log, hrun]
  rfl

/-- A fault comes from a fault of the plain parser. -/
theorem of_error (h : Traces p q) {log log' : Log} {fault : Fault}
    (hrun : p log = .error fault log') : q log.state = .error fault log'.state := by
  rw [← h log, hrun]
  rfl

/-- Parsers one after the other. -/
theorem bind {f : α → Traced β} {g : α → Parse β} (hp : Traces p q)
    (hf : ∀ value, Traces (f value) (g value)) : Traces (p >>= f) (q >>= g) := by
  intro log
  change Log.erase (EStateM.bind p f log) = EStateM.bind q g log.state
  cases hcase : p log with
  | ok value log' =>
      simp only [EStateM.bind, hcase, hp.of_ok hcase]
      exact hf value log'
  | error fault log' =>
      simp only [EStateM.bind, hcase, hp.of_error hcase]
      rfl

/-- A value without a step. -/
theorem pure (value : α) : Traces (Pure.pure value) (Pure.pure value) := fun _ => rfl

/-- A step of the plain parser. -/
theorem step (q : Parse α) : Traces (Traced.step q) q := by
  intro log
  unfold Traced.step
  cases q log.state with
  | ok result s => rfl
  | error fault s => rfl

/-- An event that is written down before the rest. -/
theorem note_bind (event : Event) (h : Traces p q) :
    Traces (Traced.note event >>= fun _ => p) q := by
  intro log
  exact h (log.note event)

/-- An activity is what it consists of. -/
theorem during (activity : Activity) (h : Traces p q) : Traces (Traced.during activity p) q := by
  intro log
  unfold Traced.during
  cases hcase : p log with
  | ok result log' => exact (h.of_ok hcase).symm
  | error fault log' => exact (h.of_error hcase).symm

/-- A node with a new identity. -/
theorem node (node : NodeId → α) :
    Traces (Traced.step freshId >>= fun id => Pure.pure (node id))
      (freshId >>= fun id => Pure.pure (node id)) :=
  (step freshId).bind fun id => pure (node id)

/-- A fault raised at the current token. -/
theorem raise_here (cause : Cause) :
    Traces (Traced.raiseHere stream cause : Traced α) (Parser.raiseHere stream cause) :=
  (step _).bind fun _ => step _

/-- A token that is required. -/
theorem expect (kind : Kind) :
    Traces (Traced.expect stream kind) (Parser.expect stream kind) := by
  refine (step _).bind fun token => ?_
  split
  · exact step _
  · exact step _

/-- A part that waits for a terminator. -/
theorem recovering {kind : Kind} {ofFault : Fault → α} (h : Traces p q) :
    Traces (Traced.recovering stream kind ofFault p) (Parser.recovering stream kind ofFault q) := by
  intro log
  unfold Traced.recovering Parser.recovering
  cases hcase : p { log with
      state := { log.state with awaited := ⟨kind, log.state.pos⟩ :: log.state.awaited } } with
  | ok result log' =>
      simp only [h.of_ok hcase]
      rfl
  | error fault log' =>
      simp only [h.of_error hcase]
      by_cases hkind : stream.kindAt (stream.significant log'.state.pos) = kind
      · simp only [if_pos hkind]
        rfl
      · simp only [if_neg hkind]
        rfl

/-- A part that is one more expression. -/
theorem nested (h : Traces p q) : Traces (Traced.nested p) (Parser.nested q) := by
  intro log
  unfold Traced.nested Parser.nested
  cases hcase : p { log with
      state := { log.state with nesting := log.state.nesting + 1 } } with
  | ok result log' =>
      simp only [h.of_ok hcase]
      rfl
  | error fault log' =>
      simp only [h.of_error hcase]
      rfl

/-- The rounds of a loop over items. -/
theorem items_until {activity : Activity} {terminator : Kind} {ofFault : Fault → α}
    (h : Traces p q) (items : List α) :
    Traces (Traced.itemsUntil stream activity terminator ofFault p items)
      (Parser.itemsUntil stream terminator ofFault q items) := by
  have hround : Traces (Traced.during activity (Traced.recovering stream terminator ofFault p))
      (Parser.recovering stream terminator ofFault q) := h.recovering.during activity
  intro log
  fun_induction Traced.itemsUntil stream activity terminator ofFault p items log with
  | case1 items log pos hkind =>
      rw [Parser.itemsUntil, if_pos hkind]
      rfl
  | case2 items log pos hkind fault log' hcase =>
      have hplain : Parser.recovering stream terminator ofFault q { log.state with pos } = _ :=
        hround.of_error hcase
      rw [Parser.itemsUntil, if_neg hkind, hplain]
      rfl
  | case3 items log pos hkind found log' hcase hlt ih =>
      have hplain : Parser.recovering stream terminator ofFault q { log.state with pos } = _ :=
        hround.of_ok hcase
      rw [Parser.itemsUntil, if_neg hkind, hplain]
      simp only [if_pos hlt]
      exact ih
  | case4 items log pos hkind found log' hcase hle =>
      have hplain : Parser.recovering stream terminator ofFault q { log.state with pos } = _ :=
        hround.of_ok hcase
      rw [Parser.itemsUntil, if_neg hkind, hplain]
      simp only [if_neg hle]
      rfl

end Traces

namespace Traced

variable {stream : TokenStream} {operand : Power → Traced Tree} {plain : Power → Parse Tree}

section Layers

variable (h : ∀ power, Traces (operand power) (plain power))

include h

/-- A definition without its log. -/
theorem definition_traces (power : Power) :
    Traces (definition stream operand power) (Parser.definition stream plain power) :=
  (Traces.expect _).bind fun _ => (Traces.expect _).bind fun _ => (h power).bind fun _ => .node _

/-- An item of a let without its log. -/
theorem let_item_traces :
    Traces (letItem stream operand) (Parser.letItem stream plain) := by
  refine (definition_traces h .letIn).recovering.bind fun item =>
    (Traces.step _).bind fun kind => ?_
  split
  · exact (Traces.expect _).bind fun _ => .pure item
  · exact .pure item

/-- An item of a record without its log. -/
theorem record_item_traces :
    Traces (recordItem stream operand) (Parser.recordItem stream plain) :=
  (definition_traces h .record).recovering.bind fun item =>
    (Traces.expect _).bind fun _ => .pure item

omit h in
/-- A parameter without its log. -/
theorem param_traces : Traces (param stream) (Parser.param stream) :=
  (Traces.expect _).bind fun _ => .node _

/-- An expression by the rule of its first token without its log. -/
theorem parse_prefix_traces (rule : PrefixRule) :
    Traces (parsePrefix stream operand rule) (Parser.parsePrefix stream plain rule) := by
  cases rule with
  | identifier | placeholder | invalid => exact (Traces.step _).bind fun _ => .node _
  | literal =>
      refine (Traces.step _).bind fun token => ?_
      cases Binary64.read? token.value with
      | none => exact .step _
      | some value => exact (Traces.step _).bind fun _ => .node _
  | function =>
      exact (Traces.step _).bind fun _ => (param_traces.items_until []).bind fun _ =>
        (Traces.expect _).bind fun _ => (h .function).bind fun _ => .node _
  | letIn =>
      exact (Traces.step _).bind fun _ => ((let_item_traces h).items_until []).bind fun _ =>
        (Traces.expect _).bind fun _ => (h .letIn).bind fun _ => .node _
  | record =>
      exact (Traces.step _).bind fun _ => ((record_item_traces h).items_until []).bind fun _ =>
        (Traces.expect _).bind fun _ => .node _
  | group =>
      exact (Traces.step _).bind fun _ => (h .lowest).recovering.bind fun _ =>
        (Traces.expect _).bind fun _ => .node _
  | sign => exact (Traces.step _).bind fun _ => (h .additive).bind fun _ => .node _

/-- What continues an expression without its log. -/
theorem parse_infix_traces (power : Power) (rule : InfixRule) :
    Traces (parseInfix stream operand power rule) (Parser.parseInfix stream plain power rule) := by
  cases rule with
  | binary => exact (Traces.step _).bind fun _ => (h power).bind fun _ => .node _
  | apply => exact (h .apply).bind fun _ => .node _

omit h in
/-- The check of a height without its log. -/
theorem check_height_traces (left : Tree) (height : Nat) (continuation : Continuation) :
    Traces (checkHeight stream left height continuation)
      (lowContinuation stream height continuation) := by
  unfold checkHeight lowContinuation
  split
  · exact .note_bind _ (.pure _)
  · exact .note_bind _ (.raise_here _)

omit h in
/-- A tree is continued after it has passed the check of its height. -/
theorem bind_checked {α : Type} {height : Nat} (p : Parse Continuation)
    (k : (continuation : Continuation) → max height continuation.height + 1 ≤ maxHeight → Parse α) :
    ((p >>= lowContinuation stream height) >>= fun found => k found.1 found.2) =
      p >>= fun continuation =>
        if hle : max height continuation.height + 1 ≤ maxHeight then k continuation hle
        else Parser.raiseHere stream (.nestingTooDeep maxHeight) := by
  rw [bind_assoc]
  refine bind_congr fun continuation => ?_
  unfold lowContinuation
  by_cases hle : max height continuation.height + 1 ≤ maxHeight
  · simp only [dif_pos hle, pure_bind]
  · simp only [dif_neg hle]
    rfl

/-- A tree that passes the check of its height is continued, and any other raises a fault. -/
theorem continue_from_traces (grammar : Grammar) (floor : Power) (left : Tree) (height : Nat) :
    Traces (continueFrom stream grammar (checkHeight stream) operand floor left height)
      (Parser.continueFrom stream grammar plain floor left height) := by
  induction left, height using Parser.continueFrom.induct with
  | case1 left height ih =>
      rw [continueFrom, Parser.continueFrom]
      refine (Traces.step (currentKind stream)).bind fun kind => ?_
      cases grammar.infixRule kind with
      | none => exact .pure left
      | some found =>
          obtain ⟨power, rule⟩ := found
          by_cases hlt : floor < power
          · simp only [if_pos hlt]
            rw [← bind_checked]
            exact (((parse_infix_traces h power rule).bind fun continuation =>
              check_height_traces left height continuation).during .continuation).bind
              fun found => ih found.1 found.2
          · simp only [if_neg hlt]
            exact .pure left

end Layers

/-- Without its log the parser of expressions is the plain one. -/
theorem expression_traces (grammar : Grammar) (room : Nat) (floor : Power) :
    Traces (expression stream grammar (checkHeight stream) room floor)
      (Parser.expression stream grammar room floor) := by
  induction room generalizing floor with
  | zero => exact (Traces.raise_here _).during .expression
  | succ room ih =>
      rw [expression, Parser.expression]
      refine ((Traces.step (current stream)).bind fun token => ?_).nested.during .expression
      cases grammar.prefixRule token.kind with
      | none => exact .step _
      | some rule =>
          exact (parse_prefix_traces ih rule).bind fun left =>
            continue_from_traces ih grammar floor left left.height

/-- Without its log the parser of programs is the plain one. -/
theorem program_traces (grammar : Grammar) :
    Traces (program stream grammar (checkHeight stream)) (Parser.program stream grammar) :=
  (expression_traces grammar maxNesting .lowest).bind fun tree =>
    (Traces.expect _).bind fun _ => .pure tree

end Traced

end Parser

/-- The tree of a token sequence, and what happens while it is parsed with a check of heights, the
earliest first. -/
def Tree.historyBy (check : TokenStream → Parser.Traced.HeightCheck) (tokens : Array Token) :
    Tree × List Parser.Event :=
  match Parser.Traced.program (.ofTokens tokens) .standard (check (.ofTokens tokens)) {} with
  | .ok tree log => (tree, log.events.reverse)
  | .error f log => (.fault f, log.events.reverse)

/-- The tree of a token sequence, and what happens while it is parsed, the earliest first. -/
def Tree.history (tokens : Array Token) : Tree × List Parser.Event :=
  Tree.historyBy Parser.Traced.checkHeight tokens

/-- The log is of the run that gives the tree of a token sequence. -/
theorem Tree.history_tree (tokens : Array Token) :
    (Tree.history tokens).1 = Tree.parse tokens := by
  have hplain : Parser.Log.erase (Parser.Traced.program (.ofTokens tokens) .standard
      (Parser.Traced.checkHeight (.ofTokens tokens)) {}) =
        Parser.program (.ofTokens tokens) .standard {} :=
    Parser.Traced.program_traces .standard {}
  unfold Tree.history Tree.historyBy Tree.parse Tree.parseWith
  rw [← hplain]
  cases Parser.Traced.program (.ofTokens tokens) .standard
      (Parser.Traced.checkHeight (.ofTokens tokens)) {} with
  | ok tree log => rfl
  | error fault log => rfl

end LetScript
