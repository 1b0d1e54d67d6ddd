import LetScript.Parser.Session

/-!
# The number of expressions that are being parsed

Every expression is counted while it is being parsed, and no longer once it ends with a result or
with a fault. So each part of the parser leaves the number of counted expressions as it was. The
parser of expressions is told how much room is left for others inside, while a session finds this
out by the number: what they give is the same, as the number is the same before each operand
(`Session.expression_coincides`). `Coincide` says both of two parsers, and is put together like the
contracts of parsers.
-/

namespace LetScript

namespace Parser

/-- The state after an outcome. -/
def State.after {α : Type} : EStateM.Result Fault State α → State
  | .ok _ s => s
  | .error _ s => s

/-- While some number of expressions is being parsed, two parsers have the same outcome, and as many
expressions are being parsed after it. -/
structure Coincide {α : Type} (nesting : Nat) (p q : Parse α) : Prop where
  same : ∀ s, s.nesting = nesting → p s = q s
  kept : ∀ s, s.nesting = nesting → (State.after (p s)).nesting = nesting

namespace Coincide

variable {α β : Type} {stream : TokenStream} {n : Nat} {p q : Parse α}

/-- A parser that keeps the number coincides with itself. -/
theorem of_kept (h : ∀ s, (State.after (p s)).nesting = s.nesting) : Coincide n p p :=
  ⟨fun _ _ => rfl, fun s hs => (h s).trans hs⟩

/-- Of two parsers that coincide, both keep the number. -/
theorem right (h : Coincide n p q) : Coincide n q q :=
  ⟨fun _ _ => rfl, fun s hs => h.same s hs ▸ h.kept s hs⟩

/-- Parsers one after the other. -/
theorem bind {f g : α → Parse β} (hp : Coincide n p q)
    (hf : ∀ value, Coincide n (f value) (g value)) : Coincide n (p >>= f) (q >>= g) where
  same s hs := by
    have hkept := hp.kept s hs
    change EStateM.bind p f s = EStateM.bind q g s
    unfold EStateM.bind
    rw [← hp.same s hs]
    cases hcase : p s with
    | ok value s' =>
        rw [hcase] at hkept
        exact (hf value).same s' hkept
    | error fault s' => rfl
  kept s hs := by
    have hkept := hp.kept s hs
    change (State.after (EStateM.bind p f s)).nesting = n
    unfold EStateM.bind
    cases hcase : p s with
    | ok value s' =>
        rw [hcase] at hkept
        exact (hf value).kept s' hkept
    | error fault s' =>
        rw [hcase] at hkept
        exact hkept

/-- A result may be changed. -/
theorem map (f : α → β) (h : Coincide n p q) : Coincide n (f <$> p) (f <$> q) where
  same s hs := by
    change EStateM.map f p s = EStateM.map f q s
    unfold EStateM.map
    rw [h.same s hs]
  kept s hs := by
    have hkept := h.kept s hs
    change (State.after (EStateM.map f p s)).nesting = n
    unfold EStateM.map
    cases hcase : p s with
    | ok result s' =>
        rw [hcase] at hkept
        exact hkept
    | error fault s' =>
        rw [hcase] at hkept
        exact hkept

/-- A value without a step. -/
theorem pure (value : α) : Coincide n (Pure.pure value) (Pure.pure value) := .of_kept fun _ => rfl

/-- A node takes a new identity. -/
theorem node (node : NodeId → α) :
    Coincide n (freshId >>= fun id => Pure.pure (node id))
      (freshId >>= fun id => Pure.pure (node id)) :=
  .of_kept fun _ => rfl

/-- Looking at the current token. -/
theorem current : Coincide n (current stream) (current stream) := .of_kept fun _ => rfl

/-- Looking at the kind of the current token. -/
theorem current_kind : Coincide n (currentKind stream) (currentKind stream) := .of_kept fun _ => rfl

/-- Passing the current token. -/
theorem advance : Coincide n (advance stream) (advance stream) := .of_kept fun _ => rfl

/-- Raising a fault. -/
theorem raise (cause : Cause) (token : Token) :
    Coincide n (raise stream cause token : Parse α) (raise stream cause token) :=
  .of_kept fun _ => rfl

/-- Raising a fault at the current token. -/
theorem raise_here (cause : Cause) :
    Coincide n (raiseHere stream cause : Parse α) (raiseHere stream cause) :=
  current.bind fun token => raise cause token

/-- Passing a token of a given kind. -/
theorem expect (kind : Kind) : Coincide n (expect stream kind) (expect stream kind) := by
  refine current.bind fun token => ?_
  split
  · exact advance
  · exact raise _ token

/-- A part that waits for its terminator. -/
theorem recovering {kind : Kind} {ofFault : Fault → α} (h : Coincide n p q) :
    Coincide n (recovering stream kind ofFault p) (recovering stream kind ofFault q) where
  same s hs := by
    unfold Parser.recovering
    rw [h.same { s with awaited := ⟨kind, s.pos⟩ :: s.awaited } hs]
  kept s hs := by
    have hkept := h.kept { s with awaited := ⟨kind, s.pos⟩ :: s.awaited } hs
    unfold Parser.recovering
    cases hcase : p { s with awaited := ⟨kind, s.pos⟩ :: s.awaited } with
    | ok result s' =>
        rw [hcase] at hkept
        exact hkept
    | error fault s' =>
        rw [hcase] at hkept
        by_cases hkind : stream.kindAt (stream.significant s'.pos) = kind
        · simp only [if_pos hkind]
          exact hkept
        · simp only [if_neg hkind]
          exact hkept

/-- One more expression is counted while it is being parsed. -/
theorem nested (h : Coincide (n + 1) p q) : Coincide n (nested p) (nested q) where
  same s hs := by
    unfold Parser.nested
    rw [h.same { s with nesting := s.nesting + 1 } (congrArg (· + 1) hs)]
  kept s hs := by
    have hkept := h.kept { s with nesting := s.nesting + 1 } (congrArg (· + 1) hs)
    unfold Parser.nested
    cases hcase : p { s with nesting := s.nesting + 1 } with
    | ok result s' =>
        rw [hcase] at hkept
        exact congrArg (· - 1) hkept
    | error fault s' =>
        rw [hcase] at hkept
        exact congrArg (· - 1) hkept

/-- Items up to a terminator. -/
theorem items_until {terminator : Kind} {ofFault : Fault → α} (h : Coincide n p q)
    (items : List α) :
    Coincide n (itemsUntil stream terminator ofFault p items)
      (itemsUntil stream terminator ofFault q items) := by
  have hround (s : State) (hs : s.nesting = n) :
      Parser.recovering stream terminator ofFault p s =
        Parser.recovering stream terminator ofFault q s ∧
      (State.after (Parser.recovering stream terminator ofFault p s)).nesting = n :=
    ⟨h.recovering.same s hs, h.recovering.kept s hs⟩
  suffices hitems : ∀ s, s.nesting = n →
      itemsUntil stream terminator ofFault p items s =
        itemsUntil stream terminator ofFault q items s ∧
      (State.after (itemsUntil stream terminator ofFault p items s)).nesting = n from
    ⟨fun s hs => (hitems s hs).1, fun s hs => (hitems s hs).2⟩
  intro s hs
  fun_induction itemsUntil stream terminator ofFault p items s with
  | case1 items s pos hkind =>
      rw [itemsUntil, if_pos hkind]
      exact ⟨rfl, hs⟩
  | case2 items s pos hkind fault s' hcase =>
      obtain ⟨hsame, hkept⟩ := hround { s with pos } hs
      rw [hcase] at hsame hkept
      rw [itemsUntil, if_neg hkind, ← hsame]
      exact ⟨rfl, hkept⟩
  | case3 items s pos hkind found s' hcase hlt ih =>
      obtain ⟨hsame, hkept⟩ := hround { s with pos } hs
      rw [hcase] at hsame hkept
      have hnext : itemsUntil stream terminator ofFault q items s =
          itemsUntil stream terminator ofFault q (found :: items) s' := by
        rw [itemsUntil, if_neg hkind, ← hsame]
        simp only [if_pos hlt]
      rw [hnext]
      exact ih hkept
  | case4 items s pos hkind found s' hcase hle =>
      obtain ⟨hsame, hkept⟩ := hround { s with pos } hs
      rw [hcase] at hsame hkept
      rw [itemsUntil, if_neg hkind, ← hsame]
      simp only [if_neg hle]
      exact ⟨trivial, hkept⟩

end Coincide

/-- What is parsed once an expression is counted: the rule of the first token gives the left
operand, which is then continued. -/
def inside (stream : TokenStream) (grammar : Grammar) (operand : Power → Parse Tree)
    (floor : Power) : Parse Tree := do
  let token ← current stream
  match grammar.prefixRule token.kind with
  | none => raise stream (.cannotParseExpression token.value) token
  | some rule =>
    let left ← parsePrefix stream operand rule
    continueFrom stream grammar operand floor left left.height

/-- With room for an expression, it is counted while what is inside it is parsed. -/
theorem expression_succ (stream : TokenStream) (grammar : Grammar) (room : Nat) (floor : Power) :
    expression stream grammar (room + 1) floor =
      nested (inside stream grammar (expression stream grammar room) floor) := rfl

variable {stream : TokenStream} {n : Nat}

/-- A parameter. -/
theorem param_coincide : Coincide n (param stream) (param stream) :=
  (Coincide.expect _).bind fun _ => .node _

section Layers

variable {operand operand' : Power → Parse Tree}
  (h : ∀ power, Coincide n (operand power) (operand' power))

include h

/-- A definition. -/
theorem definition_coincide (power : Power) :
    Coincide n (definition stream operand power) (definition stream operand' power) :=
  (Coincide.expect _).bind fun _ => (Coincide.expect _).bind fun _ => (h power).bind fun _ =>
    .node _

/-- An item of a let. -/
theorem let_item_coincide : Coincide n (letItem stream operand) (letItem stream operand') := by
  refine (definition_coincide h .letIn).recovering.bind fun item =>
    Coincide.current_kind.bind fun kind => ?_
  split
  · exact (Coincide.expect _).bind fun _ => .pure item
  · exact .pure item

/-- An item of a record. -/
theorem record_item_coincide :
    Coincide n (recordItem stream operand) (recordItem stream operand') :=
  (definition_coincide h .record).recovering.bind fun item =>
    (Coincide.expect _).bind fun _ => .pure item

/-- An expression by the rule of its first token. -/
theorem parse_prefix_coincide (rule : PrefixRule) :
    Coincide n (parsePrefix stream operand rule) (parsePrefix stream operand' rule) := by
  cases rule with
  | identifier | placeholder | invalid => exact Coincide.advance.bind fun _ => .node _
  | literal =>
      refine Coincide.current.bind fun token => ?_
      cases Binary64.read? token.value with
      | none => exact .raise _ token
      | some value => exact Coincide.advance.bind fun _ => .node _
  | function =>
      exact Coincide.advance.bind fun _ => (param_coincide.items_until []).bind fun _ =>
        (Coincide.expect _).bind fun _ => (h .function).bind fun _ => .node _
  | letIn =>
      exact Coincide.advance.bind fun _ => ((let_item_coincide h).items_until []).bind fun _ =>
        (Coincide.expect _).bind fun _ => (h .letIn).bind fun _ => .node _
  | record =>
      exact Coincide.advance.bind fun _ => ((record_item_coincide h).items_until []).bind fun _ =>
        (Coincide.expect _).bind fun _ => .node _
  | group =>
      exact Coincide.advance.bind fun _ => (h .lowest).recovering.bind fun _ =>
        (Coincide.expect _).bind fun _ => .node _
  | sign => exact Coincide.advance.bind fun _ => (h .additive).bind fun _ => .node _

/-- What continues an expression by the rule of the next token. -/
theorem parse_infix_coincide (power : Power) (rule : InfixRule) :
    Coincide n (parseInfix stream operand power rule) (parseInfix stream operand' power rule) := by
  cases rule with
  | binary => exact Coincide.advance.bind fun _ => (h power).bind fun _ => .node _
  | apply => exact (h .apply).bind fun _ => .node _

/-- The continuations of an expression. -/
theorem continue_from_coincide (grammar : Grammar) (floor : Power) (left : Tree) (height : Nat) :
    Coincide n (continueFrom stream grammar operand floor left height)
      (continueFrom stream grammar operand' floor left height) := by
  induction left, height using continueFrom.induct with
  | case1 left height ih =>
      rw [continueFrom, continueFrom]
      refine Coincide.current_kind.bind fun kind => ?_
      cases grammar.infixRule kind with
      | none => exact .pure left
      | some found =>
          obtain ⟨power, rule⟩ := found
          by_cases hlt : floor < power
          · simp only [if_pos hlt]
            refine (parse_infix_coincide h power rule).bind fun continuation => ?_
            by_cases hle : max height continuation.height + 1 ≤ maxHeight
            · simp only [dif_pos hle]
              exact ih continuation hle
            · simp only [dif_neg hle]
              exact .raise_here _
          · simp only [if_neg hlt]
            exact .pure left

/-- What is inside an expression. -/
theorem inside_coincide (grammar : Grammar) (floor : Power) :
    Coincide n (inside stream grammar operand floor) (inside stream grammar operand' floor) := by
  refine Coincide.current.bind fun token => ?_
  cases grammar.prefixRule token.kind with
  | none => exact .raise _ token
  | some rule =>
      exact (parse_prefix_coincide h rule).bind fun left =>
        continue_from_coincide h grammar floor left left.height

end Layers

/-- Parsing an expression leaves the number of those that are being parsed as it was. -/
theorem expression_coincide (stream : TokenStream) (grammar : Grammar) (room n : Nat)
    (floor : Power) :
    Coincide n (expression stream grammar room floor) (expression stream grammar room floor) := by
  -- operands are parsed with less room, while one more expression is being parsed
  induction room generalizing n floor with
  | zero => exact .raise_here _
  | succ room ih =>
      rw [expression_succ]
      exact .nested (inside_coincide (ih (n + 1)) grammar floor)

end Parser

/-- A session parses an expression like the parser that is told the room that is left. -/
theorem Session.expression_coincides (session : Session) (n : Nat) (floor : Power) :
    Parser.Coincide n
      (Parser.expression session.stream session.grammar (maxNesting - n) floor)
      (session.expression floor) where
  same s hs := by rw [Session.expression, hs]
  kept := (Parser.expression_coincide session.stream session.grammar _ n floor).kept

end LetScript
