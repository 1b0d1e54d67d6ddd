import LetScript.Proofs.Parser.Barrier
import LetScript.Proofs.Parser.Trace

/-!
# The parser gets on

The log of a run shows that a parser comes to an end, whatever the tokens are. No step goes back or
passes an end of input, and whatever ends with a result has passed the token that came first: an
expression, and every round of a loop. So no loop has to be stopped for want of progress, and the
run ends at the first end of input (`Tree.parse_progress`). A log in which this is true so far is
sound. `Gains` says that a parser keeps its log sound, and is put together like the
contracts of parsers.
-/

namespace LetScript

/-- Up to the next token nothing is read, and the same token comes next. -/
theorem TokenStream.stays_of_le {stream : TokenStream} {start pos : Nat} (hle : start ≤ pos)
    (hpos : pos ≤ stream.significant start) :
    stream.window start pos = [] ∧ stream.next pos = stream.next start := by
  have hsignificant : stream.significant pos = stream.significant start := by
    refine Nat.le_antisymm (significant_le hpos (stream.kind_at_significant_ne start)) ?_
    refine Nat.le_of_not_lt fun hlt => stream.kind_at_significant_ne pos ?_
    exact kind_at_of_lt_significant (Nat.le_trans hle (stream.le_significant pos)) hlt
  constructor
  · have happend : stream.window start pos ++ stream.window pos (stream.significant start) = _ :=
      window_append hle hpos
    rw [window_significant] at happend
    exact (List.append_eq_nil_iff.1 happend).1
  · rw [next, next, hsignificant]

namespace Parser

/-- The position at which a step has left the stream. -/
def Event.pos? : Event → Option Nat
  | moved pos => some pos
  | ended .. | stalled _ | checked .. => none

/-- The positions at which the stream was left, in the order of the events. -/
def Event.positions (events : List Event) : List Nat := events.filterMap Event.pos?

/-- What has happened from the start of a stream on, the earliest first, has led forward to its
first end of input. -/
structure Progress (stream : TokenStream) (events : List Event) : Prop where
  /-- No step goes back. -/
  ordered : (Event.positions events).Pairwise (· ≤ ·)
  /-- Every position is that of a token. -/
  bounded : ∀ pos ∈ Event.positions events, pos < stream.tokens.length
  /-- No end of input is passed. -/
  passes : ∀ pos ∈ Event.positions events, stream.Passes 0 pos
  /-- At the last position an end of input comes next. -/
  ends : (stream.next ((Event.positions events).getLastD 0)).kind = .endOfInput
  /-- An expression or a round that has ended with a result has passed its first token. -/
  advances : ∀ activity start stop, .ended activity start (some stop) ∈ events →
    stream.significant start < stop
  /-- No loop is stopped because a round has passed nothing. -/
  unstalled : ∀ activity, .stalled activity ∉ events

/-! ## Sound logs -/

namespace Log

/-- A log, the latest event first, in which the stream was only led forward so far, and never past
an end of input. -/
structure Sound (stream : TokenStream) (log : Log) : Prop where
  passes : stream.Passes 0 log.state.pos
  latest : (Event.positions log.events).headD 0 = log.state.pos
  ordered : (Event.positions log.events).Pairwise (· ≥ ·)
  advances : ∀ activity start stop, .ended activity start (some stop) ∈ log.events →
    stream.significant start < stop
  unstalled : ∀ activity, .stalled activity ∉ log.events

/-- The log after an outcome. -/
def after {α : Type} : EStateM.Result Fault Log α → Log
  | .ok _ log => log
  | .error _ log => log

namespace Sound

variable {stream : TokenStream} {log : Log}

/-- The stream has not been further than it is. -/
theorem reached (h : log.Sound stream) :
    ∀ pos ∈ Event.positions log.events, pos ≤ log.state.pos := by
  have hlatest := h.latest
  have hordered := h.ordered
  cases hpositions : Event.positions log.events with
  | nil => simp
  | cons first rest =>
      rw [hpositions] at hlatest hordered
      obtain rfl : first = log.state.pos := hlatest
      intro pos hpos
      rcases List.mem_cons.1 hpos with rfl | hpos
      · exact Nat.le_refl _
      · exact (List.pairwise_cons.1 hordered).1 pos hpos

/-- A step may lead the stream forward. -/
theorem move (h : log.Sound stream) {s : State} (hpasses : stream.Passes log.state.pos s.pos) :
    (log.move s).Sound stream where
  passes := h.passes.trans hpasses
  latest := rfl
  ordered := by
    refine List.pairwise_cons.2 ⟨?_, h.ordered⟩
    exact fun pos hpos => Nat.le_trans (h.reached pos hpos) hpasses.le
  advances activity start stop hevent :=
    h.advances activity start stop (by simpa [Log.move] using hevent)
  unstalled activity hevent := h.unstalled activity (by simpa [Log.move] using hevent)

/-- The awaited kinds may change. -/
theorem await (h : log.Sound stream) (awaited : List Awaited) :
    Sound stream { log with state := { log.state with awaited } } :=
  ⟨h.passes, h.latest, h.ordered, h.advances, h.unstalled⟩

/-- Expressions may be entered and left. -/
theorem nesting (h : log.Sound stream) (nesting : Nat) :
    Sound stream { log with state := { log.state with nesting } } :=
  ⟨h.passes, h.latest, h.ordered, h.advances, h.unstalled⟩

/-- A check may be written down. -/
theorem note_checked (h : log.Sound stream) (tree : Tree) (passed : Bool) :
    (log.note (.checked tree passed)).Sound stream where
  passes := h.passes
  latest := h.latest
  ordered := h.ordered
  advances activity start stop hevent :=
    h.advances activity start stop (by simpa [note] using hevent)
  unstalled activity hevent := h.unstalled activity (by simpa [note] using hevent)

/-- The end of an activity may be written down if a result has passed the first token. -/
theorem note_ended (h : log.Sound stream) {activity : Activity} {start : Nat} {stop : Option Nat}
    (hstop : ∀ pos ∈ stop, stream.significant start < pos) :
    (log.note (.ended activity start stop)).Sound stream where
  passes := h.passes
  latest := h.latest
  ordered := h.ordered
  advances activity' start' stop' hevent := by
    rcases List.mem_cons.1 hevent with heq | hevent
    · obtain ⟨-, rfl, rfl⟩ := Event.ended.inj heq
      exact hstop stop' rfl
    · exact h.advances activity' start' stop' hevent
  unstalled activity' hevent := h.unstalled activity' (by simpa [note] using hevent)

end Sound

end Log

/-! ## Parsers that keep their logs sound -/

/-- A parser, which is a plain one without its log, keeps the log sound if the next token has a
property. -/
structure Gains {α : Type} (stream : TokenStream) (pre : Token → Prop) (p : Traced α)
    (q : Parse α) : Prop where
  traces : Traces p q
  parses : Parses stream q fun _ _ _ _ => True
  sound : ∀ log : Log, log.state.Ready → log.Sound stream → pre (stream.next log.state.pos) →
    (Log.after (p log)).Sound stream

namespace Gains

variable {α β : Type} {stream : TokenStream} {pre : Token → Prop} {p : Traced α} {q : Parse α}

/-- More may be known about the next token. -/
theorem strengthen {pre' : Token → Prop} (h : Gains stream pre p q)
    (hpre : ∀ token, pre' token → pre token) : Gains stream pre' p q :=
  ⟨h.traces, h.parses, fun log hready hlog hnext => h.sound log hready hlog (hpre _ hnext)⟩

/-- A step of the plain parser. -/
theorem step {R : Reading α} (h : Parses stream q R) : Gains stream pre (.step q) q where
  traces := .step q
  parses := h.mono fun _ _ _ _ _ => trivial
  sound log hready hlog _ := by
    have houtcome := h log.state hready
    unfold Traced.step
    cases hcase : q log.state with
    | ok result s =>
        rw [hcase] at houtcome
        exact hlog.move houtcome.1.passes
    | error fault s =>
        rw [hcase] at houtcome
        exact hlog.move houtcome.passes

/-- A parser after another one. -/
theorem bind {f : α → Traced β} {g : α → Parse β} (hp : Gains stream pre p q)
    (hf : ∀ value, Gains stream (fun _ => True) (f value) (g value)) :
    Gains stream pre (p >>= f) (q >>= g) where
  traces := hp.traces.bind fun value => (hf value).traces
  parses := (hp.parses.bind fun value => (hf value).parses).mono fun _ _ _ _ _ => trivial
  sound log hready hlog hpre := by
    have hfirst := hp.sound log hready hlog hpre
    change (Log.after (EStateM.bind p f log)).Sound stream
    unfold EStateM.bind
    cases hcase : p log with
    | ok value log' =>
        rw [hcase] at hfirst
        have houtcome := hp.parses log.state hready
        rw [hp.traces.of_ok hcase] at houtcome
        exact (hf value).sound log' (houtcome.1.ready hready) hfirst trivial
    | error fault log' =>
        rw [hcase] at hfirst
        exact hfirst

/-- A value without a step. -/
theorem pure (value : α) : Gains stream pre (Pure.pure value) (Pure.pure value) where
  traces := .pure value
  parses := (Parses.pure value).mono fun _ _ _ _ _ => trivial
  sound _ _ hlog _ := hlog

/-- A node with a new identity. -/
theorem node (node : NodeId → α) :
    Gains stream pre (Traced.step freshId >>= fun id => Pure.pure (node id))
      (freshId >>= fun id => Pure.pure (node id)) :=
  (step fresh_id_parses).bind fun id => pure (node id)

/-- A raised fault. -/
theorem raise (cause : Cause) (token : Token) :
    Gains stream pre (.step (Parser.raise stream cause token) : Traced α)
      (Parser.raise stream cause token) :=
  step (raise_parses cause token fun _ _ _ _ => True)

/-- A fault raised at the current token. -/
theorem raise_here (cause : Cause) :
    Gains stream pre (Traced.raiseHere stream cause : Traced α) (raiseHere stream cause) :=
  (step current_parses).bind fun token => raise cause token

/-- A token that is required. -/
theorem expect (kind : Kind) :
    Gains stream pre (Traced.expect stream kind) (Parser.expect stream kind) := by
  refine (step current_parses).bind fun token => ?_
  split
  · exact step advance_parses
  · exact raise _ token

/-- The kind of the current token is looked at before the rest. -/
theorem current_kind_bind {f : Kind → Traced α} {g : Kind → Parse α}
    (hf : ∀ kind, Gains stream (fun token => token.kind = kind) (f kind) (g kind)) :
    Gains stream pre (Traced.step (currentKind stream) >>= f) (currentKind stream >>= g) where
  traces := (Traces.step _).bind fun kind => (hf kind).traces
  parses := (current_kind_parses.bind fun kind => (hf kind).parses).mono fun _ _ _ _ _ => trivial
  sound log hready hlog _ := by
    have hfollows := Follows.significant stream log.state
    refine (hf _).sound _ (hfollows.ready hready) (hlog.move hfollows.passes) ?_
    show (stream.next (stream.significant log.state.pos)).kind = (stream.next log.state.pos).kind
    rw [stream.next_significant]

/-- A check is written down before the rest. -/
theorem note_checked_bind (h : Gains stream pre p q) (tree : Tree) (passed : Bool) :
    Gains stream pre (Traced.note (.checked tree passed) >>= fun _ => p) q where
  traces := h.traces.note_bind _
  parses := h.parses
  sound log hready hlog hpre := h.sound (log.note _) hready (hlog.note_checked tree passed) hpre

/-- An activity whose results pass the first token. -/
theorem during {activity : Activity} {R : Reading α} (h : Gains stream pre p q)
    (hread : Parses stream q R)
    (hstrict : ∀ first result next, pre first → R first result [] next → next ≠ first) :
    Gains stream pre (.during activity p) q where
  traces := h.traces.during activity
  parses := h.parses
  sound log hready hlog hpre := by
    have hsound := h.sound log hready hlog hpre
    have houtcome := hread log.state hready
    unfold Traced.during
    cases hcase : p log with
    | ok result log' =>
        rw [hcase] at hsound
        rw [h.traces.of_ok hcase] at houtcome
        obtain ⟨hfollows, hR⟩ := houtcome
        refine hsound.note_ended ?_
        rintro pos ⟨⟩
        -- otherwise nothing was read, and the same token would come next
        refine Nat.lt_of_not_le fun hle => ?_
        obtain ⟨hwindow, hnext⟩ := TokenStream.stays_of_le hfollows.passes.le hle
        rw [hwindow] at hR
        exact hstrict _ _ _ hpre hR hnext
    | error fault log' =>
        rw [hcase] at hsound
        exact hsound.note_ended (by simp)

/-- A part that waits for its terminator. -/
theorem recovering {kind : Kind} (hblank : kind ≠ .blank) {ofFault : Fault → α}
    (h : Gains stream pre p q) :
    Gains stream pre (.recovering stream kind ofFault p)
      (Parser.recovering stream kind ofFault q) where
  traces := h.traces.recovering
  parses := (recovering_parses hblank ofFault h.parses).mono fun _ _ _ _ _ => trivial
  sound log hready hlog hpre := by
    have hbody := h.sound
      { log with state := { log.state with awaited := ⟨kind, log.state.pos⟩ :: log.state.awaited } }
      (hready.await hblank) (hlog.await _) hpre
    have hmoved (log : Log) (hlog : log.Sound stream) :
        (log.move { log.state with pos := stream.significant log.state.pos }).Sound stream :=
      hlog.move (stream.passes_significant log.state.pos)
    exact Traced.outcome_recovering stream (P := fun outcome => (Log.after outcome).Sound stream)
      (fun _ _ awaited hlog => hlog.await awaited) (fun _ log => hmoved log)
      (fun _ log => hmoved log) hbody

/-- A part that is one more expression. -/
theorem nested (h : Gains stream pre p q) : Gains stream pre (.nested p) (Parser.nested q) where
  traces := h.traces.nested
  parses := h.parses.nested
  sound log hready hlog hpre := by
    have hbody := h.sound
      { log with state := { log.state with nesting := log.state.nesting + 1 } }
      ((Follows.nesting stream log.state _).ready hready) (hlog.nesting _) hpre
    exact Traced.outcome_nested (P := fun outcome => (Log.after outcome).Sound stream)
      (fun _ _ nesting hlog => hlog.nesting nesting) (fun _ _ nesting hlog => hlog.nesting nesting)
      hbody

/-- The end of an activity with a result is in the log. -/
theorem ended_mem {activity : Activity} {log log' : Log} {result : α}
    (hrun : Traced.during activity p log = .ok result log') :
    .ended activity log.state.pos (some log'.state.pos) ∈ log'.events := by
  unfold Traced.during at hrun
  cases hcase : p log with
  | ok value log'' =>
      rw [hcase] at hrun
      cases hrun
      exact List.mem_cons_self ..
  | error fault log'' =>
      rw [hcase] at hrun
      cases hrun

/-- An activity that ends with a result leaves fewer tokens. -/
theorem round {activity : Activity} (h : Gains stream pre (.during activity p) q) {log log' : Log}
    (hready : log.state.Ready) (hlog : log.Sound stream) (hpre : pre (stream.next log.state.pos))
    {result : α} (hrun : Traced.during activity p log = .ok result log') :
    log'.state.Ready ∧ log'.Sound stream ∧
      stream.remaining log'.state.pos < stream.remaining log.state.pos := by
  have hsound := h.sound log hready hlog hpre
  rw [hrun] at hsound
  have houtcome := h.parses log.state hready
  rw [h.traces.of_ok hrun] at houtcome
  refine ⟨houtcome.1.ready hready, hsound, ?_⟩
  have hlt : stream.significant log.state.pos < log'.state.pos :=
    hsound.advances _ _ _ (ended_mem hrun)
  have hle := stream.le_significant log.state.pos
  have hpasses : stream.Passes 0 log'.state.pos := hsound.passes
  have hsize := hpasses.le_size (by omega)
  unfold TokenStream.remaining
  omega

/-- Items up to a terminator, if one that reads nothing ends at the terminator. -/
theorem items_until {activity : Activity} {terminator : Kind} (hblank : terminator ≠ .blank)
    {R : Reading α} (ofFault : Fault → α) (hread : Parses stream q R)
    (hprogress : ∀ first result next, first.kind ≠ terminator → R first result [] next →
      next.kind = terminator) (h : Gains stream (fun _ => True) p q) (items : List α) :
    Gains stream (fun _ => True) (Traced.itemsUntil stream activity terminator ofFault p items)
      (Parser.itemsUntil stream terminator ofFault q items) where
  traces := h.traces.items_until items
  parses := Parses.mono
    (fun s hs => items_until_accords hblank ofFault hread hprogress items s hs)
    fun _ _ _ _ _ => trivial
  sound log hready hlog _ := by
    -- a round does not begin at the terminator, and if it read nothing it would end there
    have hround : Gains stream (fun first => first.kind ≠ terminator)
        (.during activity (.recovering stream terminator ofFault p))
        (Parser.recovering stream terminator ofFault q) := by
      refine ((h.strengthen fun _ _ => trivial).recovering hblank).during
        (recovering_parses hblank ofFault hread) ?_
      rintro first result next hfirst hR rfl
      rcases hR with hR | ⟨_, _, _, hnext⟩
      · exact hfirst (hprogress _ _ _ hfirst hR)
      · exact hfirst hnext
    have hsignificant (log : Log) := Follows.significant stream log.state
    have hnext (log : Log) (hkind : stream.kindAt (stream.significant log.state.pos) ≠ terminator) :
        (stream.next (stream.significant log.state.pos)).kind ≠ terminator := by
      rw [stream.next_significant]
      exact hkind
    fun_induction Traced.itemsUntil stream activity terminator ofFault p items log with
    | case1 items log pos hkind => exact hlog.move (hsignificant log).passes
    | case2 items log pos hkind fault log' hcase =>
        have hlog' := hround.sound (log.move { log.state with pos })
          ((hsignificant log).ready hready) (hlog.move (hsignificant log).passes) (hnext log hkind)
        rw [hcase] at hlog'
        exact hlog'
    | case3 items log pos hkind found log' hcase hlt ih =>
        obtain ⟨hready', hlog', -⟩ := hround.round ((hsignificant log).ready hready)
          (hlog.move (hsignificant log).passes) (hnext log hkind) hcase
        exact ih hready' hlog'
    | case4 items log pos hkind found log' hcase hle =>
        obtain ⟨-, -, hlt⟩ := hround.round ((hsignificant log).ready hready)
          (hlog.move (hsignificant log).passes) (hnext log hkind) hcase
        have hpos : log.state.pos ≤ pos := (hsignificant log).passes.le
        change stream.body.size - log'.state.pos < stream.body.size - pos at hlt
        unfold TokenStream.remaining at hle
        omega

end Gains

/-! ## Layers -/

/-- Every expression of the language is read from at least one token. -/
theorem nonempty_interpretation :
    Interpretation .standard (fun _ _ _ _ w _ => w ≠ []) (fun _ _ _ _ w _ => w ≠ []) where
  of_start hrule hform := by
    cases hform (Grammar.kind_ne_end hrule) <;> simp
  of_continuation hleft _ _ _ _ := by
    simp [hleft]
  of_left hleft _ := hleft

section Layers

variable {stream : TokenStream} {operand : Power → Traced Tree} {plain : Power → Parse Tree}
  (h : ∀ power, Gains stream (fun _ => True) (operand power) (plain power))

include h

/-- A definition keeps the log sound. -/
theorem definition_gains (power : Power) :
    Gains stream (fun _ => True) (Traced.definition stream operand power)
      (definition stream plain power) :=
  (Gains.expect _).bind fun _ => (Gains.expect _).bind fun _ =>
    (h power).bind fun _ => .node _

/-- An item of a let keeps the log sound. -/
theorem let_item_gains :
    Gains stream (fun _ => True) (Traced.letItem stream operand) (letItem stream plain) := by
  refine ((definition_gains h .letIn).recovering (by decide)).bind fun item =>
    (Gains.step current_kind_parses).bind fun kind => ?_
  split
  · exact (Gains.expect _).bind fun _ => .pure item
  · exact .pure item

/-- An item of a record keeps the log sound. -/
theorem record_item_gains :
    Gains stream (fun _ => True) (Traced.recordItem stream operand) (recordItem stream plain) :=
  ((definition_gains h .record).recovering (by decide)).bind fun item =>
    (Gains.expect _).bind fun _ => .pure item

omit h in
/-- A parameter keeps the log sound. -/
theorem param_gains : Gains stream (fun _ => True) (Traced.param stream) (param stream) :=
  (Gains.expect _).bind fun _ => .node _

/-- An expression that is read by the rule of its first token keeps the log sound. -/
theorem parse_prefix_gains (rule : PrefixRule) :
    Gains stream (fun _ => True) (Traced.parsePrefix stream operand rule)
      (parsePrefix stream plain rule) := by
  have hoperand (power : Power) := (h power).parses
  cases rule with
  | identifier | placeholder | invalid =>
      exact (Gains.step advance_parses).bind fun _ => .node _
  | literal =>
      refine (Gains.step current_parses).bind fun token => ?_
      cases Binary64.read? token.value with
      | none => exact .raise _ _
      | some value => exact (Gains.step advance_parses).bind fun _ => .node _
  | function =>
      exact (Gains.step advance_parses).bind fun _ =>
        (Gains.items_until (by decide) Param.fault param_parses
          (fun _ _ _ _ => Reading.ParamName.progress) param_gains []).bind fun _ =>
        (Gains.expect _).bind fun _ => (h .function).bind fun _ => .node _
  | letIn =>
      exact (Gains.step advance_parses).bind fun _ =>
        (Gains.items_until (by decide) Item.fault (let_item_parses hoperand)
          (fun _ _ _ _ => Reading.LetItem.progress) (let_item_gains h) []).bind fun _ =>
        (Gains.expect _).bind fun _ => (h .letIn).bind fun _ => .node _
  | record =>
      exact (Gains.step advance_parses).bind fun _ =>
        (Gains.items_until (by decide) Item.fault (record_item_parses hoperand)
          (fun _ _ _ _ => Reading.RecordItem.progress) (record_item_gains h) []).bind fun _ =>
        (Gains.expect _).bind fun _ => .node _
  | group =>
      exact (Gains.step advance_parses).bind fun _ =>
        ((h .lowest).recovering (by decide)).bind fun _ =>
          (Gains.expect _).bind fun _ => .node _
  | sign => exact (Gains.step advance_parses).bind fun _ => (h .additive).bind fun _ => .node _

/-- What continues an expression keeps the log sound. -/
theorem parse_infix_gains (pre : Token → Prop) (power : Power) (rule : InfixRule) :
    Gains stream pre (Traced.parseInfix stream operand power rule)
      (parseInfix stream plain power rule) := by
  cases rule with
  | binary => exact (Gains.step advance_parses).bind fun _ => (h power).bind fun _ => .node _
  | apply => exact ((h .apply).strengthen fun _ _ => trivial).bind fun _ => .node _

omit h in
/-- The check of a height keeps the log sound. -/
theorem check_height_gains (left : Tree) (height : Nat) (continuation : Continuation) :
    Gains stream (fun _ => True) (Traced.checkHeight stream left height continuation)
      (lowContinuation stream height continuation) := by
  unfold Traced.checkHeight lowContinuation
  split
  · exact .note_checked_bind (.pure _) _ _
  · exact .note_checked_bind (.raise_here _) _ _

omit h in
/-- What continues an expression and passes the check of its height is read from at least one
token. -/
theorem checked_parses (hread : ∀ power, Parses stream (plain power) fun _ _ w _ => w ≠ [])
    (height : Nat) (power : Power) (rule : InfixRule) :
    Parses stream (parseInfix stream plain power rule >>= lowContinuation stream height)
      fun first _ w _ => first.kind ≠ .endOfInput → w ≠ [] := by
  refine ((parse_infix_parses hread power rule).bind
    (S := fun _ _ _ _ _ => True) fun continuation => ?_).mono ?_
  · unfold lowContinuation
    split
    · exact (Parses.pure _).mono fun _ _ _ _ _ => trivial
    · exact raise_here_parses _ _
  · rintro first result w next ⟨continuation, w₁, w₂, middle, rfl, hform, -⟩ hend
    cases hform hend with
    | binary id hright => simp
    | apply id hargument => simp [hargument]

/-- Continuing an expression keeps the log sound, if operands are read from at least one token. -/
theorem continue_from_gains
    (hread : ∀ power, Parses stream (plain power) fun _ _ w _ => w ≠ []) (floor : Power)
    (left : Tree) (height : Nat) :
    Gains stream (fun _ => True)
      (Traced.continueFrom stream .standard (.checkHeight stream) operand floor left height)
      (continueFrom stream .standard plain floor left height) := by
  induction left, height using Parser.continueFrom.induct with
  | case1 left height ih =>
      rw [Traced.continueFrom, continueFrom]
      refine Gains.current_kind_bind fun kind => ?_
      cases hrule : Grammar.standard.infixRule kind with
      | none => exact .pure left
      | some found =>
          obtain ⟨power, rule⟩ := found
          by_cases hlt : floor < power
          · simp only [if_pos hlt]
            rw [← Traced.bind_checked]
            have hround := (parse_infix_gains h (fun first => first.kind = kind) power rule).bind
              fun continuation => check_height_gains left height continuation
            refine (hround.during (checked_parses hread height power rule) ?_).bind
              fun found => ih found.1 found.2
            rintro first result next rfl hR
            exact absurd rfl (hR (Grammar.infix_kind_ne_end hrule))
          · simp only [if_neg hlt]
            exact .pure left

end Layers

/-- Parsing an expression keeps the log sound. -/
theorem expression_gains {stream : TokenStream} (room : Nat) (floor : Power) :
    Gains stream (fun _ => True)
      (Traced.expression stream .standard (.checkHeight stream) room floor)
      (expression stream .standard room floor) := by
  have hread (room : Nat) (floor : Power) :
      Parses stream (expression stream .standard room floor) fun _ _ w _ => w ≠ [] :=
    expression_parses nonempty_interpretation room floor
  induction room generalizing floor with
  | zero =>
      exact (Gains.raise_here _).during (hread 0 floor) fun _ _ _ _ hR => absurd rfl hR
  | succ room ih =>
      have hwhole := hread (room + 1) floor
      rw [expression] at hwhole ⊢
      rw [Traced.expression]
      refine Gains.during ((Gains.step current_parses).bind fun token => ?_).nested hwhole
        fun _ _ _ _ hR => absurd rfl hR
      cases Grammar.standard.prefixRule token.kind with
      | none => exact .raise _ _
      | some rule =>
          exact (parse_prefix_gains ih rule).bind fun left =>
            continue_from_gains ih (hread room) floor left left.height

/-- Parsing a program keeps the log sound. -/
theorem program_gains (stream : TokenStream) :
    Gains stream (fun _ => True) (Traced.program stream .standard (.checkHeight stream))
      (program stream .standard) :=
  (expression_gains maxNesting .lowest).bind fun tree =>
    (Gains.expect _).bind fun _ => .pure tree

namespace Log

/-- Nothing has happened in the first state. -/
theorem sound_initial (stream : TokenStream) : Sound stream {} where
  passes := .refl stream 0
  latest := rfl
  ordered := List.Pairwise.nil
  advances _ _ _ hevent := by cases hevent
  unstalled _ hevent := by cases hevent

/-- A sound log that ends before an end of input tells of progress. -/
theorem Sound.progress {stream : TokenStream} {log : Log} (h : log.Sound stream)
    (hend : (stream.next log.state.pos).kind = .endOfInput) :
    Progress stream log.events.reverse := by
  have hpositions : Event.positions log.events.reverse = (Event.positions log.events).reverse :=
    List.filterMap_reverse ..
  have hlt : log.state.pos < stream.tokens.length := by
    have hlength : stream.tokens.length = stream.body.size + 1 := by
      simp [TokenStream.tokens]
    rcases Nat.eq_zero_or_pos log.state.pos with hzero | hpos
    · omega
    · have := h.passes.le_size hpos
      omega
  refine ⟨?_, ?_, ?_, ?_, ?_, ?_⟩
  · rw [hpositions, List.pairwise_reverse]
    exact h.ordered
  · intro pos hpos
    rw [hpositions, List.mem_reverse] at hpos
    exact Nat.lt_of_le_of_lt (h.reached pos hpos) hlt
  · intro pos hpos
    rw [hpositions, List.mem_reverse] at hpos
    refine ⟨Nat.zero_le pos, fun other hle hother => ?_⟩
    exact h.passes.kind_ne other hle (Nat.lt_of_lt_of_le hother (h.reached pos hpos))
  · have hlatest := h.latest
    rw [List.headD_eq_head?_getD] at hlatest
    rw [hpositions, List.getLastD_eq_getLast?, List.getLast?_reverse, hlatest]
    exact hend
  · intro activity start stop hevent
    exact h.advances activity start stop (List.mem_reverse.1 hevent)
  · intro activity hevent
    exact h.unstalled activity (List.mem_reverse.1 hevent)

end Log

end Parser

/-- While a token sequence is parsed, the position in its stream never goes back, is that of a token
and has no end of input before it. Every expression and every round of a loop that ends with a
result has passed its first token, no loop is stopped for want of progress, and the run that gives
the tree ends at the first end of input. -/
theorem Tree.parse_progress (tokens : Array Token) :
    (Tree.history tokens).1 = Tree.parse tokens ∧
      Parser.Progress (.ofTokens tokens) (Tree.history tokens).2 := by
  refine ⟨Tree.history_tree tokens, ?_⟩
  have hready := Parser.State.ready_initial
  have hgains := Parser.program_gains (.ofTokens tokens)
  have hsound := hgains.sound {} hready (Parser.Log.sound_initial _) trivial
  have houtcome := Parser.program_parses (.ofTokens tokens) Parser.nonempty_interpretation {} hready
  unfold Tree.history Tree.historyBy
  cases hcase : Parser.Traced.program (.ofTokens tokens) .standard (.checkHeight (.ofTokens tokens))
    {} with
  | ok tree log =>
      rw [hcase] at hsound
      rw [hgains.traces.of_ok hcase] at houtcome
      exact hsound.progress houtcome.2.1
  | error fault log =>
      rw [hcase] at hsound
      rw [hgains.traces.of_error hcase] at houtcome
      have hend := (Parser.Unwound.of_initial houtcome).1
      have hnext : ((TokenStream.ofTokens tokens).next log.state.pos).kind = .endOfInput := by
        rw [TokenStream.next_of_ne (by rw [hend]; decide)]
        exact hend
      exact hsound.progress hnext

end LetScript
