import LetScript.Proofs.Parser.Trace
import Mathlib.Algebra.BigOperators.Group.List.Basic
import Mathlib.Algebra.Order.Group.Multiset

/-!
# The log of a parser leaves nothing out

A tree shows what must have happened while it was parsed: each operand is an expression, each item,
parameter and operator took a round of its loop, each operator was found low enough, and a fault may
tell that a tree was too tall. The log has an event for every one of these, so that two expressions
of a tree are two events as well (`Tree.history_complete`). What happened is counted with
multiplicities, also for a part of which only a fault is left.
-/

namespace LetScript

namespace Parser

/-- What must have happened for a tree to be parsed. -/
inductive Occurrence where
  /-- An expression or a round of a loop has ended. -/
  | ended (activity : Activity)
  /-- A tree was found low enough. -/
  | passed (tree : Tree)
  /-- Some tree was found too tall. -/
  | refused

/-- What an event says to have happened. -/
def Event.occurrence? : Event → Option Occurrence
  | ended activity _ _ => some (.ended activity)
  | checked tree true => some (.passed tree)
  | checked _ false => some .refused
  | moved _ | stalled _ => none

/-- What happened by some events. -/
def Event.occurrences (events : List Event) : Multiset Occurrence :=
  events.filterMap Event.occurrence?

/-- What must have happened for a list to be parsed, each part of which took a round of a loop. -/
def rounds {α : Type} (activity : Activity) (need : α → Multiset Occurrence) (parts : List α) :
    Multiset Occurrence :=
  (parts.map fun part => {.ended activity} + need part).sum

section Rounds

variable {α : Type} (activity : Activity) (need : α → Multiset Occurrence)

/-- One more part takes one more round. -/
theorem rounds_cons (part : α) (parts : List α) :
    rounds activity need (part :: parts) =
      rounds activity need parts + ({.ended activity} + need part) := by
  rw [rounds, List.map_cons, List.sum_cons, add_comm]
  rfl

/-- The order of the parts does not matter. -/
theorem rounds_reverse (parts : List α) :
    rounds activity need parts.reverse = rounds activity need parts := by
  rw [rounds, List.map_reverse]
  exact (List.reverse_perm _).sum_eq

end Rounds

end Parser

/-- What a fault tells to have happened: a tree was too tall, if this is what the diagnostic says
and it is not the diagnostic with which the token came. -/
def Fault.occurrences (fault : Fault) : Multiset Parser.Occurrence :=
  if fault.diagnostic.cause = .nestingTooDeep maxHeight ∧
      fault.token.diagnostic.map Diagnostic.cause ≠ some (.nestingTooDeep maxHeight) then
    {.refused}
  else 0

/-- What a parameter tells to have happened in its round. -/
def Param.occurrences : Param → Multiset Parser.Occurrence
  | .name _ _ => 0
  | .fault f => f.occurrences

mutual

/-- What a tree tells to have happened inside the expression that gave it. -/
def Tree.occurrences : Tree → Multiset Parser.Occurrence
  | .identifier _ _ => 0
  | .literal _ _ _ => 0
  | .placeholder _ _ => 0
  | .fault f => f.occurrences
  | .paren _ _ inner _ => {.ended .expression} + inner.occurrences
  | .letIn _ _ items _ body =>
    Item.listOccurrences .letItem items + ({.ended .expression} + body.occurrences)
  | .function _ _ params _ body =>
    Parser.rounds .param Param.occurrences params + ({.ended .expression} + body.occurrences)
  | .record _ _ items _ => Item.listOccurrences .recordItem items
  | .unary _ _ operand => {.ended .expression} + operand.occurrences
  | .binary id left operator right =>
    {.ended .continuation} + ({.passed (.binary id left operator right)} +
      (left.occurrences + ({.ended .expression} + right.occurrences)))
  | .apply id callee argument =>
    {.ended .continuation} + ({.passed (.apply id callee argument)} +
      (callee.occurrences + ({.ended .expression} + argument.occurrences)))

/-- What an item tells to have happened in its round. -/
def Item.occurrences : Item → Multiset Parser.Occurrence
  | .definition _ _ _ value => {.ended .expression} + value.occurrences
  | .fault f => f.occurrences

/-- What items tell to have happened, each of which took a round. -/
def Item.listOccurrences (activity : Parser.Activity) : List Item → Multiset Parser.Occurrence
  | [] => 0
  | item :: items =>
    Item.listOccurrences activity items + ({.ended activity} + item.occurrences)

end

/-- What items tell to have happened is what each of them tells. -/
theorem Item.list_occurrences_eq (activity : Parser.Activity) (items : List Item) :
    Item.listOccurrences activity items = Parser.rounds activity Item.occurrences items := by
  induction items with
  | nil => rfl
  | cons item items ih => rw [Item.listOccurrences, ih, Parser.rounds_cons]

/-- A fault of another cause tells nothing. -/
theorem Fault.occurrences_of_ne {fault : Fault}
    (h : fault.diagnostic.cause ≠ .nestingTooDeep maxHeight) : fault.occurrences = 0 :=
  if_neg fun hboth => h hboth.1

/-- A fault tells of one tree at most. -/
theorem Fault.occurrences_le (fault : Fault) : fault.occurrences ≤ {.refused} := by
  unfold Fault.occurrences
  split
  · exact le_rfl
  · exact Multiset.zero_le _

/-- What continues a tree tells that its operand is an expression. -/
def Continuation.occurrences : Continuation → Multiset Parser.Occurrence
  | .binary _ _ right => {.ended .expression} + right.occurrences
  | .apply _ argument => {.ended .expression} + argument.occurrences

/-- A tree that is continued took one more round, in which it was found low enough. -/
theorem Continuation.occurrences_attach (left : Tree) (continuation : Continuation) :
    (continuation.attach left).occurrences =
      {.ended .continuation} + ({.passed (continuation.attach left)} +
        (left.occurrences + continuation.occurrences)) := by
  cases continuation <;> rfl

namespace Parser

/-- What happened so far. -/
def Log.occurrences (log : Log) : Multiset Occurrence := Event.occurrences log.events

/-- An event adds to the log what it says to have happened. -/
theorem Log.occurrences_note {event : Event} {occurrence : Occurrence}
    (h : event.occurrence? = some occurrence) (log : Log) :
    (log.note event).occurrences = {occurrence} + log.occurrences := by
  unfold Log.occurrences Event.occurrences Log.note
  rw [List.filterMap_cons_some h]
  rfl

/-! ## Parsers that keep a full log -/

/-- A log is full after an outcome: it has what the result needs, or what is left of a part that was
given up and what the fault tells. -/
def Filled {α : Type} (given : Multiset Occurrence) (need : α → Multiset Occurrence)
    (left : Multiset Occurrence) : EStateM.Result Fault Log α → Prop
  | .ok result log => given + need result ≤ log.occurrences
  | .error fault log => given + (left + fault.occurrences) ≤ log.occurrences

/-- A parser writes down what its result needs, if what is known was written down before, whatever
else is given. Of a part that is given up some occurrences are left. -/
def Fills {α : Type} (p : Traced α) (known : Multiset Occurrence) (need : α → Multiset Occurrence)
    (left : Multiset Occurrence) : Prop :=
  ∀ given log, given + known ≤ log.occurrences → Filled given need left (p log)

namespace Fills

variable {α β : Type} {stream : TokenStream} {p : Traced α} {known left : Multiset Occurrence}
  {need : α → Multiset Occurrence}

/-- A parser after another one. -/
theorem bind {f : α → Traced β} {need' : β → Multiset Occurrence} (hp : Fills p known need left)
    (hf : ∀ value, Fills (f value) (need value) need' left) : Fills (p >>= f) known need' left := by
  intro given log hlog
  have hfirst := hp given log hlog
  change Filled given need' left (EStateM.bind p f log)
  unfold EStateM.bind
  cases hcase : p log with
  | ok value log' =>
      rw [hcase] at hfirst
      exact hf value given log' hfirst
  | error fault log' =>
      rw [hcase] at hfirst
      exact hfirst

/-- A result without a step. -/
theorem pure {value : α} (h : need value ≤ known) : Fills (Pure.pure value) known need left :=
  fun given _ hlog => (add_le_add_right h given).trans hlog

/-- Of a part that is given up only the fault may be left. -/
theorem forget (h : Fills p known need left) : Fills p known need 0 := by
  intro given log hlog
  have houtcome := h given log hlog
  revert houtcome
  cases p log with
  | ok result log' => exact id
  | error fault log' =>
      intro houtcome
      refine le_trans ?_ houtcome
      rw [zero_add]
      exact add_le_add_right (Multiset.le_add_left ..) given

/-- What is known stays known while a part is parsed, and is forgotten when it is given up. -/
theorem frame (h : Fills p 0 need 0) (known : Multiset Occurrence) :
    Fills p known (fun result => known + need result) 0 := by
  intro given log hlog
  have houtcome := h (given + known) log (by rwa [add_zero])
  revert houtcome
  cases p log with
  | ok result log' =>
      intro houtcome
      show given + (known + need result) ≤ log'.occurrences
      rw [← add_assoc]
      exact houtcome
  | error fault log' =>
      intro houtcome
      exact (add_le_add_left (Multiset.le_add_right ..) _).trans houtcome

/-- A step of the plain parser that always gives a result. -/
theorem step {q : Parse α} (h : ∀ s, ∃ result s', q s = .ok result s') :
    Fills (.step q) known (fun _ => known) left := by
  intro given log hlog
  obtain ⟨result, s', hresult⟩ := h log.state
  unfold Traced.step
  rw [hresult]
  exact hlog

/-- The current token is always found. -/
theorem current : Fills (.step (current stream)) known (fun _ => known) left :=
  step fun _ => ⟨_, _, rfl⟩

/-- A token is always passed. -/
theorem advance : Fills (.step (advance stream)) known (fun _ => known) left :=
  step fun _ => ⟨_, _, rfl⟩

/-- An event is written down. -/
theorem note {event : Event} {occurrence : Occurrence}
    (h : event.occurrence? = some occurrence) :
    Fills (.note event) known (fun _ => {occurrence} + known) left := by
  intro given log hlog
  show given + ({occurrence} + known) ≤ (log.note event).occurrences
  rw [Log.occurrences_note h, add_left_comm]
  exact add_le_add_right hlog _

/-- A node with a new identity needs what is known. -/
theorem node {node : NodeId → α} (h : ∀ id, need (node id) ≤ known) :
    Fills (Traced.step freshId >>= fun id => Pure.pure (node id)) known need left :=
  (step fun _ => ⟨_, _, rfl⟩).bind fun id => pure (h id)

/-- A raised fault may tell only what is known. -/
theorem raise {cause : Cause} {token : Token}
    (h : ∀ fault : Fault, fault.diagnostic.cause = cause → left + fault.occurrences ≤ known) :
    Fills (.step (Parser.raise stream cause token)) known need left := by
  intro given log hlog
  exact (add_le_add_right (h _ rfl) given).trans hlog

/-- A raised fault of another cause needs only what is left. -/
theorem raise_other {cause : Cause} {token : Token} (hcause : cause ≠ .nestingTooDeep maxHeight)
    (hleft : left ≤ known) :
    Fills (.step (Parser.raise stream cause token)) known need left := by
  refine raise fun fault hfault => ?_
  rw [Fault.occurrences_of_ne (hfault ▸ hcause), add_zero]
  exact hleft

/-- A token that is required. -/
theorem expect (kind : Kind) (hleft : left ≤ known) :
    Fills (Traced.expect stream kind) known (fun _ => known) left := by
  refine current.bind fun token => ?_
  split
  · exact advance
  · exact raise_other (by simp) hleft

/-- An activity ends with its result or with its fault. -/
theorem during (h : Fills p known need 0) (activity : Activity) :
    Fills (.during activity p) known (fun result => {.ended activity} + need result)
      {.ended activity} := by
  intro given log hlog
  have houtcome := h given log hlog
  unfold Traced.during
  cases hcase : p log with
  | ok result log' =>
      rw [hcase] at houtcome
      show given + ({.ended activity} + need result) ≤ Log.occurrences _
      rw [Log.occurrences_note rfl, add_left_comm]
      exact add_le_add_right houtcome _
  | error fault log' =>
      rw [hcase] at houtcome
      rw [Filled, zero_add] at houtcome
      show given + ({.ended activity} + fault.occurrences) ≤ Log.occurrences _
      rw [Log.occurrences_note rfl, add_left_comm]
      exact add_le_add_right houtcome _

/-- One more expression needs what is needed inside it. -/
theorem nested (h : Fills p known need left) : Fills (.nested p) known need left :=
  fun given _ hlog => Traced.outcome_nested (fun _ _ _ => id) (fun _ _ _ => id) (h given _ hlog)

/-- A part that a fault may stand for, which needs no more than what is left. -/
theorem recovering {kind : Kind} (h : Fills p 0 need left) (ofFault : Fault → α)
    (hfault : ∀ fault, need (ofFault fault) ≤ left + fault.occurrences) :
    Fills (.recovering stream kind ofFault p) 0 need left :=
  fun given _ hlog => Traced.outcome_recovering stream (fun _ _ _ => id) (fun _ _ => id)
    (fun fault _ houtcome => (add_le_add_right (hfault fault) given).trans houtcome)
    (h given _ hlog)

/-- Items up to a terminator, each with a round of its own. -/
theorem items_until {activity : Activity} {terminator : Kind} (h : Fills p 0 need 0)
    (ofFault : Fault → α) (hfault : ∀ fault, need (ofFault fault) ≤ fault.occurrences)
    (items : List α) :
    Fills (Traced.itemsUntil stream activity terminator ofFault p items)
      (rounds activity need items) (rounds activity need) 0 := by
  intro given log hlog
  -- a round adds what its item needs to what the items before it need
  have hround (items : List α) :
      Fills (Traced.during activity (.recovering stream terminator ofFault p))
        (rounds activity need items)
        (fun item => rounds activity need items + ({.ended activity} + need item)) 0 := by
    have hpart : Fills (.recovering stream terminator ofFault p) 0 need 0 :=
      h.recovering ofFault fun fault => (hfault fault).trans_eq (zero_add _).symm
    exact (hpart.during activity).forget.frame _
  fun_induction Traced.itemsUntil stream activity terminator ofFault p items log with
  | case1 items log pos hkind =>
      show given + rounds activity need items.reverse ≤ log.occurrences
      rw [rounds_reverse]
      exact hlog
  | case2 items log pos hkind fault log' hcase =>
      have houtcome := hround items given (log.move { log.state with pos }) hlog
      rw [hcase] at houtcome
      exact houtcome
  | case3 items log pos hkind found log' hcase hlt ih =>
      have houtcome := hround items given (log.move { log.state with pos }) hlog
      rw [hcase] at houtcome
      refine ih ?_
      rw [rounds_cons]
      exact houtcome
  | case4 items log pos hkind found log' hcase hle =>
      have houtcome := hround items given (log.move { log.state with pos }) hlog
      rw [hcase] at houtcome
      show given + rounds activity need (found :: items).reverse ≤ log'.occurrences
      rw [rounds_reverse, rounds_cons]
      exact houtcome

end Fills

/-! ## Layers -/

section Layers

variable {stream : TokenStream} {operand : Power → Traced Tree}
  (h : ∀ power, Fills (operand power) 0 (fun tree => {.ended .expression} + tree.occurrences)
    {.ended .expression})

include h

/-- A definition writes down its value. -/
theorem definition_fills (power : Power) :
    Fills (Traced.definition stream operand power) 0 Item.occurrences 0 :=
  (Fills.expect _ le_rfl).bind fun _ => (Fills.expect _ le_rfl).bind fun _ =>
    (h power).forget.bind fun _ => .node fun _ => le_rfl

/-- An item of a let writes down its value. -/
theorem let_item_fills : Fills (Traced.letItem stream operand) 0 Item.occurrences 0 := by
  refine ((definition_fills h .letIn).recovering Item.fault
    fun fault => (zero_add fault.occurrences).ge).bind fun item =>
    (Fills.step fun _ => ⟨_, _, rfl⟩).bind fun kind => ?_
  split
  · exact (Fills.expect _ (Multiset.zero_le _)).bind fun _ => .pure le_rfl
  · exact .pure le_rfl

/-- An item of a record writes down its value. -/
theorem record_item_fills : Fills (Traced.recordItem stream operand) 0 Item.occurrences 0 :=
  ((definition_fills h .record).recovering Item.fault
    fun fault => (zero_add fault.occurrences).ge).bind fun _ =>
    (Fills.expect _ (Multiset.zero_le _)).bind fun _ => .pure le_rfl

/-- An expression that is read by the rule of its first token writes down its parts. -/
theorem parse_prefix_fills (rule : PrefixRule) :
    Fills (Traced.parsePrefix stream operand rule) 0 Tree.occurrences 0 := by
  cases rule with
  | identifier | placeholder => exact Fills.advance.bind fun _ => .node fun _ => le_rfl
  | invalid =>
      -- the diagnostic is the one of the token, or that of a symbol that is not recognised
      refine Fills.advance.bind fun token => .node fun id => ?_
      rw [Tree.occurrences, Fault.occurrences, if_neg]
      rintro ⟨hcause, hother⟩
      cases hdiagnostic : token.diagnostic with
      | none => simp [hdiagnostic] at hcause
      | some diagnostic =>
          simp only [hdiagnostic, Option.getD_some] at hcause
          simp [hdiagnostic, hcause] at hother
  | literal =>
      refine Fills.current.bind fun token => ?_
      cases Binary64.read? token.value with
      | none => exact .raise_other (by simp) le_rfl
      | some value => exact Fills.advance.bind fun _ => .node fun _ => le_rfl
  | function =>
      have hparam : Fills (Traced.param stream) 0 Param.occurrences 0 :=
        (Fills.expect _ le_rfl).bind fun _ => .node fun _ => le_rfl
      exact Fills.advance.bind fun _ =>
        (hparam.items_until Param.fault (fun _ => le_rfl) []).bind fun params =>
        (Fills.expect _ (Multiset.zero_le _)).bind fun _ =>
        ((h .function).forget.frame _).bind fun body => .node fun _ => le_rfl
  | letIn =>
      refine Fills.advance.bind fun _ =>
        ((let_item_fills h).items_until Item.fault (fun _ => le_rfl) []).bind fun items =>
        (Fills.expect _ (Multiset.zero_le _)).bind fun _ =>
        ((h .letIn).forget.frame _).bind fun body => .node fun _ => ?_
      rw [Tree.occurrences, Item.list_occurrences_eq]
  | record =>
      refine Fills.advance.bind fun _ =>
        ((record_item_fills h).items_until Item.fault (fun _ => le_rfl) []).bind fun items =>
        (Fills.expect _ (Multiset.zero_le _)).bind fun _ => .node fun _ => ?_
      rw [Tree.occurrences, Item.list_occurrences_eq]
  | group =>
      exact Fills.advance.bind fun _ =>
        ((h .lowest).recovering Tree.fault fun _ => le_rfl).forget.bind fun inner =>
        (Fills.expect _ (Multiset.zero_le _)).bind fun _ => .node fun _ => le_rfl
  | sign =>
      exact Fills.advance.bind fun _ => (h .additive).forget.bind fun _ => .node fun _ => le_rfl

/-- What continues an expression writes down its operand. -/
theorem parse_infix_fills (known : Multiset Occurrence) (power : Power) (rule : InfixRule) :
    Fills (Traced.parseInfix stream operand power rule) known
      (fun continuation => known + continuation.occurrences) 0 := by
  cases rule with
  | binary =>
      exact Fills.advance.bind fun _ => ((h power).forget.frame known).bind fun _ =>
        .node fun _ => le_rfl
  | apply => exact ((h .apply).forget.frame known).bind fun _ => .node fun _ => le_rfl

omit h in
/-- The check of a height writes down the tree that was found low enough, or that it was not. -/
theorem check_height_fills (left : Tree) (height : Nat) (continuation : Continuation) :
    Fills (Traced.checkHeight stream left height continuation)
      (left.occurrences + continuation.occurrences)
      (fun found => {.passed (found.1.attach left)} + (left.occurrences + found.1.occurrences))
      0 := by
  unfold Traced.checkHeight
  split
  · exact (Fills.note rfl).bind fun _ => .pure le_rfl
  · refine (Fills.note rfl).bind fun _ => Fills.current.bind fun token => .raise fun fault _ => ?_
    rw [zero_add]
    exact fault.occurrences_le.trans (Multiset.le_add_right ..)

/-- Continuing an expression writes down its rounds. -/
theorem continue_from_fills (grammar : Grammar) (floor : Power) (left : Tree) (height : Nat) :
    Fills (Traced.continueFrom stream grammar (.checkHeight stream) operand floor left height)
      left.occurrences Tree.occurrences 0 := by
  induction left, height using Parser.continueFrom.induct with
  | case1 left height ih =>
      rw [Traced.continueFrom]
      refine (Fills.step fun _ => ⟨_, _, rfl⟩).bind fun kind => ?_
      cases grammar.infixRule kind with
      | none => exact .pure le_rfl
      | some found =>
          obtain ⟨power, rule⟩ := found
          by_cases hlt : floor < power
          · simp only [if_pos hlt]
            refine (((parse_infix_fills h left.occurrences power rule).bind fun continuation =>
              check_height_fills left height continuation).during .continuation).forget.bind
              fun found => ?_
            rw [← Continuation.occurrences_attach]
            exact ih found.1 found.2
          · simp only [if_neg hlt]
            exact .pure le_rfl

end Layers

/-- Parsing an expression writes down the expression and its parts. -/
theorem expression_fills {stream : TokenStream} (grammar : Grammar) (room : Nat) (floor : Power) :
    Fills (Traced.expression stream grammar (.checkHeight stream) room floor) 0
      (fun tree => {.ended .expression} + tree.occurrences) {.ended .expression} := by
  induction room generalizing floor with
  | zero =>
      exact (Fills.current.bind fun _ => .raise_other (by decide) le_rfl).during .expression
  | succ room ih =>
      rw [Traced.expression]
      refine (Fills.current.bind fun token => ?_).nested.during .expression
      cases grammar.prefixRule token.kind with
      | none => exact .raise_other (by simp) le_rfl
      | some rule =>
          exact (parse_prefix_fills ih rule).bind fun left =>
            continue_from_fills ih grammar floor left left.height

/-- Parsing a program writes down its expression. -/
theorem program_fills (stream : TokenStream) (grammar : Grammar) :
    Fills (Traced.program stream grammar (.checkHeight stream)) 0
      (fun tree => {.ended .expression} + tree.occurrences) {.ended .expression} :=
  (expression_fills grammar maxNesting .lowest).bind fun _ =>
    (Fills.expect _ (Multiset.le_add_right ..)).bind fun _ => .pure le_rfl

end Parser

/-- The log of a run is complete: whatever the tree of a token sequence tells to have happened, the
log has an event of its own for it. -/
theorem Tree.history_complete (tokens : Array Token) :
    {.ended .expression} + (Tree.parse tokens).occurrences ≤
      Parser.Event.occurrences (Tree.history tokens).2 := by
  have hreverse (events : List Parser.Event) :
      Parser.Event.occurrences events.reverse = Parser.Event.occurrences events := by
    rw [Parser.Event.occurrences, List.filterMap_reverse]
    exact Multiset.coe_reverse _
  have houtcome := Parser.program_fills (.ofTokens tokens) .standard 0 {} le_rfl
  rw [← Tree.history_tree]
  unfold Tree.history Tree.historyBy
  cases hcase : Parser.Traced.program (.ofTokens tokens) .standard
      (Parser.Traced.checkHeight (.ofTokens tokens)) {} with
  | ok tree log =>
      rw [hcase, Parser.Filled, zero_add] at houtcome
      rw [hreverse]
      exact houtcome
  | error fault log =>
      rw [hcase, Parser.Filled, zero_add] at houtcome
      rw [hreverse]
      exact houtcome

end LetScript
