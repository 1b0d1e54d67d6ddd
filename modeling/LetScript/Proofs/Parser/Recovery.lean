import LetScript.Proofs.Parser.Coverage
import LetScript.Proofs.Parser.Nesting

/-!
# What a fault gives up

Every call that parses an expression or a part of one leaves the awaited kinds as it found them if
it gives a result. If it raises a fault, the current token is of an awaited kind, the awaited kinds
are cut just below the innermost construct that awaits it, and the fault covers the tokens from the
start of that construct (`Session.call_disciplined`). So the construct that takes a fault is the
innermost one that waits for the current token, and only a fault at an end of input is left over.
The number of expressions being parsed is the same again after every call: parsing an expression
enters one more and leaves it on every way out (`Session.run_expression`).
-/

namespace LetScript

namespace Session

/-! ## Entering and leaving expressions -/

/-- What is parsed once an expression was entered: the rule of the first token gives the left
operand, which is then continued. -/
def insideExpression (session : Session) (floor : Power) : Parser.Parse Tree := do
  let token ← Parser.current session.stream
  match session.grammar.prefixRule token.kind with
  | none => Parser.raise session.stream (.cannotParseExpression token.value) token
  | some rule =>
    let left ← session.byPrefixRule rule
    session.continueFrom floor left

/-- Parse an expression by entering it, parsing what is inside, and leaving it with the result or
with the fault. -/
def enteredExpression (session : Session) (floor : Power) : Except Fault Tree × Session :=
  match session.enter with
  | (.error fault, after) => (.error fault, after)
  | (.ok (), inside) =>
    let (result, after) := inside.run (inside.insideExpression floor)
    (result, after.leave)

/-- With room for one more expression, parsing one is parsing what is inside it while it is
counted. -/
theorem expression_eq_nested {session : Session} (h : session.state.nesting < maxNesting)
    (floor : Power) :
    session.expression floor session.state =
      Parser.nested (session.insideExpression floor) session.state := by
  have hsucc : maxNesting - session.state.nesting =
      maxNesting - (session.state.nesting + 1) + 1 := by omega
  have hinside : Parser.Coincide (session.state.nesting + 1)
      (Parser.inside session.stream session.grammar (Parser.expression session.stream
        session.grammar (maxNesting - (session.state.nesting + 1))) floor)
      (session.insideExpression floor) :=
    Parser.inside_coincide (session.expression_coincides _) session.grammar floor
  rw [expression, hsucc, Parser.expression_succ]
  exact hinside.nested.same session.state rfl

/-- Running a parser inside one more expression counts it and leaves it on every way out. -/
theorem run_nested {α : Type} (session : Session) (body : Parser.Parse α) :
    session.run (Parser.nested body) =
      let (result, after) := run { session with
        state := { session.state with nesting := session.state.nesting + 1 } } body
      (result, after.leave) := by
  unfold run Parser.nested
  cases body { session.state with nesting := session.state.nesting + 1 } with
  | ok result state => rfl
  | error fault state => rfl

/-- Parsing an expression enters it and leaves it on every way out. -/
theorem run_expression (session : Session) (floor : Power) :
    session.run (session.expression floor) = session.enteredExpression floor := by
  by_cases hroom : session.state.nesting < maxNesting
  · have hnested : session.run (session.expression floor) =
        session.run (Parser.nested (session.insideExpression floor)) := by
      simp only [run, expression_eq_nested hroom]
    rw [hnested, run_nested]
    simp only [enteredExpression, enter, if_pos hroom]
    rfl
  · have hzero : maxNesting - session.state.nesting = 0 := by omega
    have hraise : session.expression floor session.state =
        Parser.raiseHere session.stream (.nestingTooDeep maxNesting) session.state := by
      rw [expression, hzero]
      rfl
    -- the fault is the same whatever would have been the result
    have herror : ∃ fault state, Parser.raiseHere (α := Unit) session.stream
        (.nestingTooDeep maxNesting) session.state = .error fault state ∧
          Parser.raiseHere (α := Tree) session.stream
            (.nestingTooDeep maxNesting) session.state = .error fault state :=
      ⟨_, _, rfl, rfl⟩
    obtain ⟨fault, state, hunit, htree⟩ := herror
    simp only [enteredExpression, enter, if_neg hroom, hraise, run, hunit, htree]

/-! ## Calls -/

/-- The calls that parse an expression or a part of one. -/
inductive Call where
  /-- Parse an expression that is continued above a power. -/
  | expression (floor : Power)
  /-- Continue an expression above a power. -/
  | continueFrom (floor : Power) (left : Tree)
  /-- Parse an expression by a rule for its first token. -/
  | byPrefixRule (rule : PrefixRule)
  /-- Continue an expression by a rule for the next token. -/
  | byInfixRule (rule : InfixRule) (power : Power) (left : Tree)
  /-- Make a call while waiting for a kind of token. -/
  | recovering (kind : Kind) (call : Call)

namespace Call

/-- The step that a call takes. -/
def step (session : Session) : Call → Parser.Parse Tree
  | expression floor => session.expression floor
  | continueFrom floor left => session.continueFrom floor left
  | byPrefixRule rule => session.byPrefixRule rule
  | byInfixRule rule power left => session.byInfixRule rule power left
  | recovering kind call => Parser.recovering session.stream kind .fault (call.step session)

/-- No part of a call waits for blank tokens. -/
def AwaitsNoBlank : Call → Prop
  | expression _ => True
  | continueFrom _ _ => True
  | byPrefixRule _ => True
  | byInfixRule _ _ _ => True
  | recovering kind call => kind ≠ .blank ∧ call.AwaitsNoBlank

/-- Any grammar may be given the meaning that says nothing. -/
theorem trivial_interpretation (grammar : Grammar) :
    Parser.Interpretation grammar (fun _ _ _ _ _ _ => True) (fun _ _ _ _ _ _ => True) :=
  ⟨fun _ _ => trivial, fun _ _ _ _ _ => trivial, fun _ _ => trivial⟩

/-- Every call meets the contract of a parser. -/
theorem step_parses (session : Session) {call : Call} (h : call.AwaitsNoBlank) :
    Parser.Parses session.stream (call.step session) fun _ _ _ _ => True := by
  have htrivial := trivial_interpretation session.grammar
  have hoperand (floor : Power) :
      Parser.Parses session.stream (session.expression floor) fun _ _ _ _ => True :=
    fun s => Parser.expression_parses htrivial (maxNesting - s.nesting) floor s
  induction call with
  | expression floor => exact hoperand floor
  | continueFrom floor left =>
      exact (Parser.continue_from_parses htrivial maxNesting hoperand floor left left.height
        rfl).mono fun _ _ _ _ _ => trivial
  | byPrefixRule rule =>
      exact (Parser.parse_prefix_parses hoperand rule).mono fun _ _ _ _ _ => trivial
  | byInfixRule rule power left =>
      exact ((Parser.parse_infix_parses hoperand power rule).map
        (Continuation.attach left)).mono fun _ _ _ _ _ => trivial
  | recovering kind call ih =>
      exact (Parser.recovering_parses h.1 .fault (ih h.2)).mono fun _ _ _ _ _ => trivial

/-- Every call leaves the number of expressions being parsed as it was. -/
theorem step_counted (session : Session) (call : Call) (n : Nat) :
    Parser.Coincide n (call.step session) (call.step session) := by
  have hoperand (floor : Power) := (session.expression_coincides n floor).right
  induction call with
  | expression floor => exact hoperand floor
  | continueFrom floor left =>
      exact Parser.continue_from_coincide hoperand session.grammar floor left left.height
  | byPrefixRule rule => exact Parser.parse_prefix_coincide hoperand rule
  | byInfixRule rule power left =>
      exact (Parser.parse_infix_coincide hoperand power rule).map (Continuation.attach left)
  | recovering kind call ih => exact ih.recovering

end Call

/-- How a call treats the awaited kinds and the number of expressions being parsed, and which
construct takes its fault. -/
structure Disciplined (session : Session) (call : Call) : Prop where
  /-- A result leaves the awaited kinds alone. A fault leaves those around the innermost construct
  that awaits the current token, and covers the tokens from the start of that construct. Either way
  the number of expressions being parsed is as before. -/
  outcome : match session.run (call.step session) with
    | (.ok _, after) =>
      after.state.awaited = session.state.awaited ∧
        after.state.nesting = session.state.nesting
    | (.error fault, after) =>
      after.state.nesting = session.state.nesting ∧ ∃ entry,
        Parser.Innermost (session.stream.next after.state.pos).kind session.state.awaited entry
          after.state.awaited ∧
        fault.skipped = (session.stream.body.toList.take after.state.pos).drop entry.start
  /-- Parsing an expression enters one more and leaves it on every way out. -/
  entered : ∀ floor, call = .expression floor →
    session.run (call.step session) = session.enteredExpression floor
  /-- A construct that makes the call while it waits for a kind takes its fault if the current token
  is of this kind, and is then done with waiting. Otherwise it raises the fault further. -/
  taken : ∀ kind fault s', kind ≠ .blank →
    call.step session { session.state with
      awaited := ⟨kind, session.state.pos⟩ :: session.state.awaited } = .error fault s' →
    ((session.stream.next s'.pos).kind = kind →
      (Call.recovering kind call).step session session.state = .ok (.fault fault) s' ∧
        s'.awaited = session.state.awaited) ∧
    ((session.stream.next s'.pos).kind ≠ kind →
      (Call.recovering kind call).step session session.state = .error fault s')
  /-- A fault of a whole program is raised at an end of input and covers everything before it. -/
  left_over : ∀ fault s', Parser.program session.stream session.grammar {} = .error fault s' →
    (session.stream.next s'.pos).kind = .endOfInput ∧
      fault.skipped = session.stream.body.toList.take s'.pos

/-- From every state in which faults can be raised, every call keeps to the discipline. -/
theorem call_disciplined (session : Session) (call : Call) (hcall : call.AwaitsNoBlank)
    (hready : session.state.Ready) : session.Disciplined call where
  outcome := by
    have houtcome := Call.step_parses session hcall session.state hready
    have hcounted := (call.step_counted session _).kept session.state rfl
    unfold run
    cases hcase : call.step session session.state with
    | ok result s' =>
        rw [hcase] at houtcome hcounted
        exact ⟨houtcome.1.awaited_eq, hcounted⟩
    | error fault s' =>
        rw [hcase] at houtcome hcounted
        obtain ⟨entry, hentry, hskipped⟩ := houtcome.innermost
        rw [TokenStream.slice_eq_drop_take] at hskipped
        refine ⟨hcounted, entry, ?_, hskipped⟩
        -- no blank token is awaited, so the fault has stopped at the current token
        rw [TokenStream.next_of_ne (houtcome.kind_ne_blank hready)]
        exact hentry
  entered := by
    rintro floor rfl
    exact session.run_expression floor
  taken := by
    intro kind fault s' hblank hcase
    have hwaiting := hready.await hblank
    have houtcome := Call.step_parses session hcall _ hwaiting
    rw [hcase] at houtcome
    obtain ⟨htaken, hraised⟩ :=
      Parser.recovering_of_error hblank Tree.fault hready hcase houtcome
    rw [TokenStream.next_of_ne (houtcome.kind_ne_blank hwaiting)]
    refine ⟨fun hkind => ?_, fun hkind => (hraised hkind).1⟩
    obtain ⟨hresult, hfollows, -⟩ := htaken hkind
    exact ⟨hresult, hfollows.awaited_eq⟩
  left_over := by
    intro fault s' hcase
    have houtcome := Parser.program_parses session.stream
      (Call.trivial_interpretation session.grammar) {} Parser.State.ready_initial
    rw [hcase] at houtcome
    obtain ⟨hend, hskipped⟩ := houtcome.of_initial
    rw [TokenStream.slice_eq_drop_take, List.drop_zero] at hskipped
    rw [TokenStream.next_of_ne (houtcome.kind_ne_blank Parser.State.ready_initial)]
    exact ⟨hend, hskipped⟩

/-- An expression that cannot start at a closing parenthesis, inside a let that waits for `in`
inside parentheses. -/
theorem call_disciplined_at_parenthesis :
    Parser.State.Ready ⟨1, [⟨.inWord, 1⟩, ⟨.closeParen, 0⟩, ⟨.endOfInput, 0⟩], 0, 2⟩ ∧
      Disciplined
        { stream := .ofTokens #[⟨.letWord, "let", .empty .nowhere, false, none⟩,
            ⟨.closeParen, ")", .empty .nowhere, false, none⟩]
          grammar := .standard
          state := ⟨1, [⟨.inWord, 1⟩, ⟨.closeParen, 0⟩, ⟨.endOfInput, 0⟩], 0, 2⟩ }
        (.expression .lowest) := by
  have hready :
      Parser.State.Ready ⟨1, [⟨.inWord, 1⟩, ⟨.closeParen, 0⟩, ⟨.endOfInput, 0⟩], 0, 2⟩ :=
    ⟨by decide, by decide, by decide⟩
  exact ⟨hready, call_disciplined _ _ trivial hready⟩

end Session

end LetScript
