import LetScript.Proofs.Parser.Acceptance
import LetScript.Proofs.Parser.Barrier
import LetScript.Proofs.Parser.Nesting

/-!
# Constructs find their terminators

A let, a function or a record waits for a terminator. Between its first token and the next
terminator there may be anything: as long as no token there is one that a construct around it waits
for, or would open a construct with the same terminator, the parser comes out exactly at the
terminator, with the awaited kinds as they were before (`Session.construct_finds_terminator`). What
is parsed on the way stays before the terminator, as no step passes it while its kind is awaited
(`Stays`). Nothing is asked of where the constructs around have begun to wait.
-/

namespace LetScript

/-- The kinds of the tokens between two positions, those at the positions left out, have a
property. -/
def TokenStream.Between (stream : TokenStream) (start stop : Nat) (P : Kind → Prop) : Prop :=
  ∀ pos, start < pos → pos < stop → P (stream.kindAt pos)

/-- Only lets require the word `in`. -/
theorem Grammar.kind_eq_let_word {kind : Kind} {rule : PrefixRule}
    (h : Grammar.standard.prefixRule kind = some rule) (hrule : .inWord ∈ rule.closers) :
    kind = .letWord := by
  revert hrule
  cases kind <;> cases h <;> decide

/-- Only records require a closing curly bracket. -/
theorem Grammar.kind_eq_open_curly {kind : Kind} {rule : PrefixRule}
    (h : Grammar.standard.prefixRule kind = some rule) (hrule : .closeCurly ∈ rule.closers) :
    kind = .openCurly := by
  revert hrule
  cases kind <;> cases h <;> decide

namespace Parser

variable {α β : Type} {stream : TokenStream} {start stop : Nat} {pre : Token → Prop}

/-- A state in a stretch of a stream that ends at a token of an awaited kind. The end of input is
awaited as well, and no blank token is. -/
structure State.Before (stream : TokenStream) (start stop : Nat) (s : State) : Prop where
  ge_start : start ≤ s.pos
  le_stop : s.pos ≤ stop
  awaits_stop : stream.kindAt stop ∈ s.awaited.map Awaited.kind
  awaits_end : .endOfInput ∈ s.awaited.map Awaited.kind
  no_blank : .blank ∉ s.awaited.map Awaited.kind

/-- An outcome in a stretch: a result leaves the awaited kinds alone, and a fault is raised to the
innermost construct that waits for the token at which it leaves the stream. -/
def Confined (stream : TokenStream) (stop : Nat) (s : State) :
    EStateM.Result Fault State α → Prop
  | .ok _ s' => s'.awaited = s.awaited ∧ s.pos ≤ s'.pos ∧ s'.pos ≤ stop
  | .error _ s' => (∃ entry, Innermost (stream.kindAt s'.pos) s.awaited entry s'.awaited) ∧
      s.pos ≤ s'.pos ∧ s'.pos ≤ stop

/-- A parser stays in a stretch if the next token has a property. -/
def Stays (stream : TokenStream) (start stop : Nat) (pre : Token → Prop) (p : Parse α) : Prop :=
  ∀ s, s.Before stream start stop → pre (stream.next s.pos) → Confined stream stop s (p s)

namespace State.Before

variable {s s' : State}

/-- The end of a stretch is not blank. -/
theorem stop_ne_blank (h : s.Before stream start stop) : stream.kindAt stop ≠ .blank :=
  fun hblank => h.no_blank (hblank ▸ h.awaits_stop)

/-- Blank tokens may be skipped. -/
theorem significant_le_stop (h : s.Before stream start stop) : stream.significant s.pos ≤ stop :=
  TokenStream.significant_le h.le_stop h.stop_ne_blank

/-- A token of another kind than the end of the stretch comes before it. -/
theorem significant_lt_stop (h : s.Before stream start stop)
    (hkind : (stream.next s.pos).kind ≠ stream.kindAt stop) : stream.significant s.pos < stop := by
  refine Nat.lt_of_le_of_ne h.significant_le_stop fun heq => hkind ?_
  rw [← heq]
  rfl

/-- A state further on in the stretch. -/
theorem of_le (h : s.Before stream start stop) (hawaited : s'.awaited = s.awaited)
    (hle : s.pos ≤ s'.pos) (hstop : s'.pos ≤ stop) : s'.Before stream start stop := by
  refine ⟨Nat.le_trans h.ge_start hle, hstop, ?_, ?_, ?_⟩
  · rw [hawaited]
    exact h.awaits_stop
  · rw [hawaited]
    exact h.awaits_end
  · rw [hawaited]
    exact h.no_blank

/-- The state after blank tokens were skipped. -/
theorem significant (h : s.Before stream start stop) :
    State.Before stream start stop { s with pos := stream.significant s.pos } :=
  h.of_le rfl (stream.le_significant s.pos) h.significant_le_stop

/-- A fault leaves the stream at a token that is not blank. -/
theorem significant_eq (h : s.Before stream start stop) {pos : Nat} {entry : Awaited}
    {outer : List Awaited} (hentry : Innermost (stream.kindAt pos) s.awaited entry outer) :
    stream.significant pos = pos := by
  refine TokenStream.significant_of_ne fun heq => h.no_blank ?_
  exact heq ▸ hentry.kind_mem

/-- A construct may begin to wait. -/
theorem await (h : s.Before stream start stop) {kind : Kind} (hblank : kind ≠ .blank) :
    State.Before stream start stop { s with awaited := ⟨kind, s.pos⟩ :: s.awaited } where
  ge_start := h.ge_start
  le_stop := h.le_stop
  awaits_stop := List.mem_cons_of_mem _ h.awaits_stop
  awaits_end := List.mem_cons_of_mem _ h.awaits_end
  no_blank := by simpa [Ne.symm hblank] using h.no_blank

end State.Before

/-- An outcome after a result, seen from the state before it. -/
theorem Confined.of_le {s s' : State} (hawaited : s'.awaited = s.awaited) (hle : s.pos ≤ s'.pos)
    {outcome : EStateM.Result Fault State α} (h : Confined stream stop s' outcome) :
    Confined stream stop s outcome := by
  cases outcome with
  | ok result s'' => exact ⟨h.1.trans hawaited, Nat.le_trans hle h.2.1, h.2.2⟩
  | error fault s'' => exact ⟨hawaited ▸ h.1, Nat.le_trans hle h.2.1, h.2.2⟩

/-- An outcome after the blank tokens at a state were skipped, seen from this state. -/
theorem Confined.of_significant {s : State} {outcome : EStateM.Result Fault State α}
    (h : Confined stream stop { s with pos := stream.significant s.pos } outcome) :
    Confined stream stop s outcome := by
  refine Confined.of_le ?_ ?_ h
  · rfl
  · exact stream.le_significant s.pos

namespace Stays

/-- A parser after another one. -/
theorem bind {p : Parse α} {f : α → Parse β} (hp : Stays stream start stop pre p)
    (hf : ∀ value, Stays stream start stop (fun _ => True) (f value)) :
    Stays stream start stop pre (p >>= f) := by
  intro s hs hpre
  have hfirst := hp s hs hpre
  cases hcase : p s with
  | ok value s' =>
      rw [hcase] at hfirst
      obtain ⟨hawaited, hle, hstop⟩ := hfirst
      rw [bind_of_ok hcase]
      exact .of_le hawaited hle (hf value s' (hs.of_le hawaited hle hstop) trivial)
  | error fault s' =>
      rw [hcase] at hfirst
      rw [bind_of_error hcase]
      exact hfirst

/-- More may be known about the next token. -/
theorem strengthen {p : Parse α} {pre' : Token → Prop} (hpre : ∀ token, pre' token → pre token)
    (hp : Stays stream start stop pre p) : Stays stream start stop pre' p :=
  fun s hs h => hp s hs (hpre _ h)

/-- A result without a step. -/
theorem pure (value : α) : Stays stream start stop pre (Pure.pure value) :=
  fun s hs _ => ⟨rfl, Nat.le_refl s.pos, hs.le_stop⟩

/-- A node takes a new identity. -/
theorem node (node : NodeId → α) :
    Stays stream start stop pre (freshId >>= fun id => Pure.pure (node id)) :=
  fun s hs _ => ⟨rfl, Nat.le_refl s.pos, hs.le_stop⟩

/-- What is inside one more expression stays in the stretch. -/
theorem nested {p : Parse α} (hp : Stays stream start stop pre p) :
    Stays stream start stop pre (nested p) := by
  intro s hs hpre
  have hbefore : State.Before stream start stop { s with nesting := s.nesting + 1 } :=
    hs.of_le rfl (Nat.le_refl s.pos) hs.le_stop
  refine outcome_nested (fun _ _ _ => id) (fun _ _ _ => id) (.of_le ?_ ?_ (hp _ hbefore hpre))
  · rfl
  · exact Nat.le_refl s.pos

/-- The current token is looked at before the rest. -/
theorem current_bind {f : Token → Parse α}
    (hf : ∀ s : State, s.Before stream start stop → pre (stream.next s.pos) →
      Stays stream start stop (· = stream.next s.pos) (f (stream.next s.pos))) :
    Stays stream start stop pre (current stream >>= f) := by
  intro s hs hpre
  refine .of_significant (hf s hs hpre _ hs.significant ?_)
  exact stream.next_significant s.pos

/-- The kind of the current token is looked at before the rest. -/
theorem current_kind_bind {f : Kind → Parse α}
    (hf : ∀ kind, Stays stream start stop (fun token => token.kind = kind) (f kind)) :
    Stays stream start stop pre (currentKind stream >>= f) := by
  intro s hs _
  refine .of_significant (hf _ _ hs.significant ?_)
  exact congrArg Token.kind (stream.next_significant s.pos)

/-- A token of another kind than the end of the stretch is passed. -/
theorem advance (hpre : ∀ token, pre token → token.kind ≠ stream.kindAt stop) :
    Stays stream start stop pre (advance stream) := by
  intro s hs hnext
  have hlt := hs.significant_lt_stop (hpre _ hnext)
  have hle := stream.le_significant s.pos
  by_cases hend : (stream.get (stream.significant s.pos)).kind = .endOfInput
  · simp only [Parser.advance, if_pos hend]
    exact ⟨rfl, hle, Nat.le_of_lt hlt⟩
  · simp only [Parser.advance, if_neg hend]
    exact ⟨rfl, Nat.le_succ_of_le hle, hlt⟩

/-- A raised fault leaves the stream at the end of the stretch at the latest. -/
theorem raise (cause : Cause) (token : Token) :
    Stays stream start stop pre (raise stream cause token : Parse α) := by
  intro s hs _
  let pos := stream.skipTo (s.awaited.map Awaited.kind) s.pos
  have hmem := stream.kind_at_skip_to_mem s.pos hs.awaits_end
  obtain ⟨entry, outer, hentry, hunwind⟩ := unwind_innermost pos hmem
  change Confined stream stop s (.error _ { s with
    pos, awaited := (unwind (stream.kindAt pos) pos s.awaited).2, nextId := s.nextId + 1 })
  rw [hunwind]
  exact ⟨⟨entry, hentry⟩, stream.le_skip_to _ s.pos,
    TokenStream.skip_to_le hs.le_stop hs.awaits_stop⟩

/-- A fault raised at the current token. -/
theorem raise_here (cause : Cause) :
    Stays stream start stop pre (raiseHere stream cause : Parse α) :=
  .current_bind fun _ _ _ => raise cause _

/-- A token of another kind than the end of the stretch may be required. -/
theorem expect {kind : Kind} (hkind : kind ≠ stream.kindAt stop) :
    Stays stream start stop pre (expect stream kind) := by
  refine .current_bind fun s _ _ => ?_
  split
  next heq => exact .advance (by rintro token rfl; rwa [heq])
  next => exact .raise _ _

/-- A part that a fault may stand for. -/
theorem recovering {kind : Kind} (hblank : kind ≠ .blank) {body : Parse α} (ofFault : Fault → α)
    (hbody : Stays stream start stop (fun _ => True) body) :
    Stays stream start stop (fun _ => True) (recovering stream kind ofFault body) := by
  intro s hs _
  have hawait := hs.await hblank
  have houtcome := hbody _ hawait trivial
  unfold Parser.recovering
  cases hcase : body { s with awaited := ⟨kind, s.pos⟩ :: s.awaited } with
  | ok result s' =>
      rw [hcase] at houtcome
      obtain ⟨hawaited, hle, hstop⟩ := houtcome
      exact ⟨by simp [hawaited], hle, hstop⟩
  | error fault s' =>
      rw [hcase] at houtcome
      obtain ⟨⟨entry, hentry⟩, hle, hstop⟩ := houtcome
      have hpos := hawait.significant_eq hentry
      simp only [hpos]
      by_cases hkind : stream.kindAt s'.pos = kind
      · -- the part itself is the innermost construct that awaits its terminator
        rw [if_pos hkind]
        exact ⟨(hentry.of_cons_eq hkind.symm).2, hle, hstop⟩
      · rw [if_neg hkind]
        exact ⟨⟨entry, hentry.of_cons_ne (Ne.symm hkind)⟩, hle, hstop⟩

/-- Items up to a terminator. -/
theorem items_until {terminator : Kind} (hblank : terminator ≠ .blank) {item : Parse α}
    (ofFault : Fault → α) (hitem : Stays stream start stop (fun _ => True) item)
    (items : List α) :
    Stays stream start stop (fun _ => True)
      (itemsUntil stream terminator ofFault item items) := by
  have hround (s : State) (hs : s.Before stream start stop) :=
    (hitem.recovering hblank ofFault _ hs.significant trivial).of_significant
  intro s hs _
  fun_induction itemsUntil stream terminator ofFault item items s with
  | case1 items s pos hkind => exact ⟨rfl, stream.le_significant s.pos, hs.significant_le_stop⟩
  | case2 items s pos hkind fault s' hcase =>
      have houtcome := hround s hs
      rw [hcase] at houtcome
      exact houtcome
  | case3 items s pos hkind found s' hcase _ ih =>
      have houtcome := hround s hs
      rw [hcase] at houtcome
      obtain ⟨hawaited, hle, hstop⟩ := houtcome
      exact .of_le hawaited hle (ih (hs.of_le hawaited hle hstop))
  | case4 items s pos hkind found s' hcase _ =>
      have houtcome := hround s hs
      rw [hcase] at houtcome
      exact houtcome

end Stays

/-! ## Expressions in a stretch -/

/-- A parameter stays in a stretch that does not end with a name. -/
theorem param_stays (hname : .identifier ≠ stream.kindAt stop) :
    Stays stream start stop (fun _ => True) (param stream) :=
  (Stays.expect hname).bind fun _ => .node _

section Layers

variable {operand : Power → Parse Tree}
  (hoperand : ∀ power, Stays stream start stop (fun _ => True) (operand power))

include hoperand

/-- A definition stays in a stretch that ends with no part of it. -/
theorem definition_stays (hname : .identifier ≠ stream.kindAt stop)
    (hequals : .equals ≠ stream.kindAt stop) (power : Power) :
    Stays stream start stop (fun _ => True) (definition stream operand power) :=
  (Stays.expect hname).bind fun _ => (Stays.expect hequals).bind fun _ =>
    (hoperand power).bind fun _ => .node _

/-- An item of a let stays in a stretch that ends with no part of it. -/
theorem let_item_stays (hname : .identifier ≠ stream.kindAt stop)
    (hequals : .equals ≠ stream.kindAt stop) (hsemicolon : .semicolon ≠ stream.kindAt stop) :
    Stays stream start stop (fun _ => True) (letItem stream operand) := by
  have hdefinition := definition_stays hoperand hname hequals .letIn
  refine (hdefinition.recovering (by decide) Item.fault).bind fun item =>
    .current_kind_bind fun kind => ?_
  split
  · exact (Stays.expect hsemicolon).bind fun _ => .pure item
  · exact .pure item

/-- An item of a record stays in a stretch that ends with no part of it. -/
theorem record_item_stays (hname : .identifier ≠ stream.kindAt stop)
    (hequals : .equals ≠ stream.kindAt stop) (hsemicolon : .semicolon ≠ stream.kindAt stop) :
    Stays stream start stop (fun _ => True) (recordItem stream operand) :=
  ((definition_stays hoperand hname hequals .record).recovering (by decide) Item.fault).bind
    fun item => (Stays.expect hsemicolon).bind fun _ => .pure item

/-- An expression stays in a stretch that ends with no token which the rule of its first token
requires. -/
theorem parse_prefix_stays (rule : PrefixRule)
    (hclosers : ∀ kind ∈ rule.closers, kind ≠ stream.kindAt stop) :
    Stays stream start stop (fun token => token.kind ≠ stream.kindAt stop)
      (parsePrefix stream operand rule) := by
  have hadvance : Stays stream start stop (fun token => token.kind ≠ stream.kindAt stop)
      (advance stream) := .advance fun _ hne => hne
  cases rule with
  | identifier | invalid | placeholder => exact hadvance.bind fun _ => .node _
  | literal =>
      refine .current_bind fun s _ hne => ?_
      cases Binary64.read? (stream.next s.pos).value with
      | none => exact .raise _ _
      | some value =>
          exact (hadvance.strengthen (by rintro token rfl; exact hne)).bind fun _ => .node _
  | function =>
      have hparam : Stays stream start stop (fun _ => True) (param stream) :=
        param_stays (hclosers .identifier (by decide))
      exact hadvance.bind fun _ => (hparam.items_until (by decide) Param.fault []).bind fun _ =>
        (Stays.expect (hclosers .arrow (by decide))).bind fun _ =>
        (hoperand .function).bind fun _ => .node _
  | letIn =>
      have hitem := let_item_stays hoperand (hclosers .identifier (by decide))
        (hclosers .equals (by decide)) (hclosers .semicolon (by decide))
      exact hadvance.bind fun _ => (hitem.items_until (by decide) Item.fault []).bind fun _ =>
        (Stays.expect (hclosers .inWord (by decide))).bind fun _ =>
        (hoperand .letIn).bind fun _ => .node _
  | record =>
      have hitem := record_item_stays hoperand (hclosers .identifier (by decide))
        (hclosers .equals (by decide)) (hclosers .semicolon (by decide))
      exact hadvance.bind fun _ => (hitem.items_until (by decide) Item.fault []).bind fun _ =>
        (Stays.expect (hclosers .closeCurly (by decide))).bind fun _ => .node _
  | group =>
      exact hadvance.bind fun _ =>
        ((hoperand .lowest).recovering (by decide) Tree.fault).bind fun _ =>
        (Stays.expect (hclosers .closeParen (by decide))).bind fun _ => .node _
  | sign => exact hadvance.bind fun _ => (hoperand .additive).bind fun _ => .node _

/-- What continues an expression stays in the stretch. -/
theorem parse_infix_stays (power : Power) (rule : InfixRule) :
    Stays stream start stop (fun token => token.kind ≠ stream.kindAt stop)
      (parseInfix stream operand power rule) := by
  cases rule with
  | binary =>
      exact (Stays.advance fun _ hne => hne).bind fun _ => (hoperand power).bind fun _ => .node _
  | apply => exact ((hoperand .apply).strengthen fun _ _ => trivial).bind fun _ => .node _

/-- Continuing an expression stays in a stretch whose last token continues none. -/
theorem continue_from_stays (hstop : Grammar.standard.infixRule (stream.kindAt stop) = none)
    (floor : Power) (left : Tree) (height : Nat) :
    Stays stream start stop (fun _ => True)
      (continueFrom stream .standard operand floor left height) := by
  induction left, height using continueFrom.induct with
  | case1 left height ih =>
      rw [continueFrom]
      refine .current_kind_bind fun kind => ?_
      split
      · exact .pure left
      · next power rule hrule =>
          have hkind : kind ≠ stream.kindAt stop := by
            rintro rfl
            rw [hstop] at hrule
            cases hrule
          split
          · refine ((parse_infix_stays hoperand power rule).strengthen
              (by rintro token rfl; exact hkind)).bind fun continuation => ?_
            by_cases hle : max height continuation.height + 1 ≤ maxHeight
            · simp only [dif_pos hle]
              exact ih continuation hle
            · simp only [dif_neg hle]
              exact .raise_here _
          · exact .pure left

end Layers

/-- A stretch of a stream whose last token neither starts nor continues an expression, and in which
no token starts an expression that requires such a token. -/
structure Plain (stream : TokenStream) (start stop : Nat) : Prop where
  starts_none : Grammar.standard.prefixRule (stream.kindAt stop) = none
  continues_none : Grammar.standard.infixRule (stream.kindAt stop) = none
  requires_none : ∀ pos, start ≤ pos → pos < stop → ∀ rule,
    Grammar.standard.prefixRule (stream.kindAt pos) = some rule →
      stream.kindAt stop ∉ rule.closers

/-- An expression stays in a stretch, whatever it is made of. -/
theorem expression_stays (h : Plain stream start stop) (room : Nat) (floor : Power) :
    Stays stream start stop (fun _ => True) (expression stream .standard room floor) := by
  induction room generalizing floor with
  | zero => exact .raise_here _
  | succ room ih =>
      refine .nested (.current_bind fun s hs _ => ?_)
      split
      · exact .raise _ _
      · next rule hrule =>
          have hne : (stream.next s.pos).kind ≠ stream.kindAt stop := by
            intro heq
            rw [heq, h.starts_none] at hrule
            cases hrule
          have hclosers : ∀ kind ∈ rule.closers, kind ≠ stream.kindAt stop := by
            rintro kind hkind rfl
            exact h.requires_none (stream.significant s.pos)
              (Nat.le_trans hs.ge_start (stream.le_significant s.pos))
              (hs.significant_lt_stop hne) rule hrule hkind
          exact ((parse_prefix_stays ih rule hclosers).strengthen
            (by rintro token rfl; exact hne)).bind fun left =>
            continue_from_stays ih h.continues_none floor left left.height

/-! ## Items up to the end of a stretch -/

/-- The current token is found after the blank ones. -/
theorem current_eq (s : State) :
    current stream s = .ok (stream.next s.pos) { s with pos := stream.significant s.pos } := rfl

/-- A token of the kind that is required is passed. -/
theorem expect_of_kind {s : State} {kind : Kind} (hend : kind ≠ .endOfInput)
    (hkind : (stream.next s.pos).kind = kind) :
    expect stream kind s =
      .ok (stream.next s.pos) { s with pos := stream.significant s.pos + 1 } := by
  have hnext : (stream.next (stream.significant s.pos)).kind ≠ .endOfInput := by
    rw [stream.next_significant, hkind]
    exact hend
  rw [expect, bind_of_ok (current_eq s), if_pos hkind, advance_of_ne hnext]
  simp only [stream.next_significant, stream.significant_significant]

/-- If a token of some kind is required and there is a result, this token was passed. -/
theorem pos_lt_of_expect {s s' : State} {kind : Kind} {token : Token} (hend : kind ≠ .endOfInput)
    (h : expect stream kind s = .ok token s') : s.pos < s'.pos := by
  by_cases hkind : (stream.next s.pos).kind = kind
  · rw [expect_of_kind hend hkind] at h
    cases h
    exact Nat.lt_succ_of_le (stream.le_significant s.pos)
  · rw [expect, bind_of_ok (current_eq s), if_neg hkind] at h
    cases h

/-- A result of a parser has passed a token, or the end of the stretch comes next. -/
def Moves (stream : TokenStream) (start stop : Nat) (p : Parse α) : Prop :=
  ∀ s s' : State, ∀ result, s.Before stream start stop → p s = .ok result s' →
    s.pos < s'.pos ∨ stream.kindAt s'.pos = stream.kindAt stop

/-- A parameter passes its name. -/
theorem param_moves : Moves stream start stop (param stream) := by
  intro s s' result _ hrun
  obtain ⟨token, s₁, hname, hnode⟩ := exists_of_bind_ok hrun
  have hlt := pos_lt_of_expect (by decide) hname
  cases hnode
  exact .inl hlt

/-- An item of a let passes its semicolon, or is followed by `in`. -/
theorem let_item_moves {operand : Power → Parse Tree}
    (hdefinition : Stays stream start stop (fun _ => True) (definition stream operand .letIn))
    (hstop : stream.kindAt stop = .inWord) :
    Moves stream start stop (letItem stream operand) := by
  intro s s' result hs hrun
  obtain ⟨item, s₁, hitem, hrest⟩ := exists_of_bind_ok hrun
  have houtcome := hdefinition.recovering (show Kind.semicolon ≠ .blank by decide) Item.fault s hs
    trivial
  rw [hitem] at houtcome
  have hle : s.pos ≤ stream.significant s₁.pos :=
    Nat.le_trans houtcome.2.1 (stream.le_significant s₁.pos)
  obtain ⟨kind, s₂, hkind, hend⟩ := exists_of_bind_ok hrest
  cases hkind
  split at hend
  next =>
    obtain ⟨semicolon, s₃, hsemicolon, hpure⟩ := exists_of_bind_ok hend
    have hlt := pos_lt_of_expect (by decide) hsemicolon
    cases hpure
    exact .inl (Nat.lt_of_le_of_lt hle hlt)
  next hin =>
    cases hend
    exact .inr ((not_not.1 hin).trans hstop.symm)

/-- An item of a record passes its semicolon. -/
theorem record_item_moves {operand : Power → Parse Tree}
    (hdefinition : Stays stream start stop (fun _ => True) (definition stream operand .record)) :
    Moves stream start stop (recordItem stream operand) := by
  intro s s' result hs hrun
  obtain ⟨item, s₁, hitem, hrest⟩ := exists_of_bind_ok hrun
  have houtcome := hdefinition.recovering (show Kind.semicolon ≠ .blank by decide) Item.fault s hs
    trivial
  rw [hitem] at houtcome
  obtain ⟨semicolon, s₂, hsemicolon, hpure⟩ := exists_of_bind_ok hrest
  have hlt := pos_lt_of_expect (by decide) hsemicolon
  cases hpure
  exact .inl (Nat.lt_of_le_of_lt houtcome.2.1 hlt)

/-- A stretch in which no token before the last one is of an awaited kind or of the kind of the last
one. -/
structure Garbage (stream : TokenStream) (kinds : List Kind) (start stop : Nat) : Prop where
  awaits_end : .endOfInput ∈ kinds
  no_blank : .blank ∉ kinds
  stop_ne_blank : stream.kindAt stop ≠ .blank
  free : ∀ pos, start ≤ pos → pos < stop →
    stream.kindAt pos ∉ kinds ∧ stream.kindAt pos ≠ stream.kindAt stop

namespace Garbage

variable {kinds : List Kind}

/-- Only the last token of the stretch is of its kind. -/
theorem eq_stop (h : Garbage stream kinds start stop) {pos : Nat} (hstart : start ≤ pos)
    (hstop : pos ≤ stop) (hkind : stream.kindAt pos = stream.kindAt stop) : pos = stop := by
  refine Nat.le_antisymm hstop (Nat.le_of_not_lt fun hlt => ?_)
  exact (h.free pos hstart hlt).2 hkind

/-- An item in a stretch of garbage, or the fault that stands for it, leaves the awaited kinds as
they are and the stream further on in the stretch. -/
theorem recovering_reaches {item : Parse α} (ofFault : Fault → α) {s : State}
    (h : Garbage stream (s.awaited.map Awaited.kind) start stop)
    (hitem : Stays stream start stop (fun _ => True) item) (hmoves : Moves stream start stop item)
    (hstart : start ≤ s.pos) (hlt : s.pos < stop) :
    ∃ found s', recovering stream (stream.kindAt stop) ofFault item s = .ok found s' ∧
      s'.awaited = s.awaited ∧ s.pos < s'.pos ∧ s'.pos ≤ stop := by
  have hbefore : State.Before stream start stop
      { s with awaited := ⟨stream.kindAt stop, s.pos⟩ :: s.awaited } := by
    refine ⟨hstart, Nat.le_of_lt hlt, List.mem_cons_self .., ?_, ?_⟩
    · exact List.mem_cons_of_mem _ h.awaits_end
    · simpa [Ne.symm h.stop_ne_blank] using h.no_blank
  have houtcome := hitem _ hbefore trivial
  unfold recovering
  cases hcase : item { s with awaited := ⟨stream.kindAt stop, s.pos⟩ :: s.awaited } with
  | ok result s' =>
      rw [hcase] at houtcome
      obtain ⟨hawaited, hle, hstop⟩ := houtcome
      refine ⟨result, _, rfl, by simp [hawaited], ?_, hstop⟩
      rcases hmoves _ _ _ hbefore hcase with hmoved | hkind
      · exact hmoved
      · have heq := h.eq_stop (Nat.le_trans hstart hle) hstop hkind
        exact heq ▸ hlt
  | error fault s' =>
      rw [hcase] at houtcome
      obtain ⟨⟨entry, hentry⟩, hle, hstop⟩ := houtcome
      have hpos := hbefore.significant_eq hentry
      have hkind : stream.kindAt s'.pos = stream.kindAt stop := by
        -- a construct around cannot be waiting for the token, as it would be garbage
        refine Decidable.byContradiction fun hne => ?_
        have hlt' : s'.pos < stop := Nat.lt_of_le_of_ne hstop fun heq => hne (heq ▸ rfl)
        exact (h.free s'.pos (Nat.le_trans hstart hle) hlt').1
          (hentry.of_cons_ne (Ne.symm hne)).kind_mem
      have heq := h.eq_stop (Nat.le_trans hstart hle) hstop hkind
      simp only [hpos, if_pos hkind]
      exact ⟨_, _, rfl, (hentry.of_cons_eq hkind.symm).2, heq ▸ hlt, hstop⟩

/-- A round that begins before the last token of a stretch of garbage leaves fewer tokens of it. -/
theorem round_reaches {item : Parse α} (ofFault : Fault → α) {s : State}
    (h : Garbage stream (s.awaited.map Awaited.kind) start stop)
    (hitem : Stays stream start stop (fun _ => True) item) (hmoves : Moves stream start stop item)
    (hcounted : ∀ n, Coincide n item item) (hstart : start ≤ s.pos) (hstop : s.pos ≤ stop)
    (hkind : stream.kindAt (stream.significant s.pos) ≠ stream.kindAt stop) :
    ∃ found s', recovering stream (stream.kindAt stop) ofFault item
        { s with pos := stream.significant s.pos } = .ok found s' ∧
      s'.awaited = s.awaited ∧ s'.nesting = s.nesting ∧ start ≤ s'.pos ∧ s'.pos ≤ stop ∧
      stream.remaining s'.pos < stream.remaining s.pos := by
  have hle := stream.le_significant s.pos
  have hlt : stream.significant s.pos < stop := by
    refine Nat.lt_of_le_of_ne (TokenStream.significant_le hstop h.stop_ne_blank) fun heq => ?_
    exact hkind (heq ▸ rfl)
  have hsize : stream.significant s.pos < stream.body.size := by
    refine TokenStream.lt_size_of_kind_at_ne fun heq => ?_
    exact (h.free _ (Nat.le_trans hstart hle) hlt).1 (heq ▸ h.awaits_end)
  obtain ⟨found, s', hrun, hawaited, hmoved, hstop'⟩ :=
    recovering_reaches (s := { s with pos := stream.significant s.pos }) ofFault h hitem hmoves
      (Nat.le_trans hstart hle) hlt
  change stream.significant s.pos < s'.pos at hmoved
  have hround : Coincide s.nesting (recovering stream (stream.kindAt stop) ofFault item)
      (recovering stream (stream.kindAt stop) ofFault item) := (hcounted s.nesting).recovering
  have hnesting := hround.kept { s with pos := stream.significant s.pos } rfl
  rw [hrun] at hnesting
  refine ⟨found, s', hrun, hawaited, hnesting, by omega, hstop', ?_⟩
  unfold TokenStream.remaining
  omega

/-- The items in a stretch of garbage end exactly at its last token. -/
theorem items_until_reaches {item : Parse α} (ofFault : Fault → α)
    (hitem : Stays stream start stop (fun _ => True) item) (hmoves : Moves stream start stop item)
    (hcounted : ∀ n, Coincide n item item) (items : List α) (s : State)
    (h : Garbage stream (s.awaited.map Awaited.kind) start stop) (hstart : start ≤ s.pos)
    (hstop : s.pos ≤ stop) :
    ∃ all nextId, itemsUntil stream (stream.kindAt stop) ofFault item items s =
      .ok all { s with pos := stop, nextId } := by
  fun_induction itemsUntil stream (stream.kindAt stop) ofFault item items s with
  | case1 items s pos hkind =>
      have heq : pos = stop := h.eq_stop (Nat.le_trans hstart (stream.le_significant s.pos))
        (TokenStream.significant_le hstop h.stop_ne_blank) hkind
      exact ⟨_, _, by rw [heq]⟩
  | case2 items s pos hkind fault s' hcase =>
      obtain ⟨found, s'', hrun, -⟩ :=
        h.round_reaches ofFault hitem hmoves hcounted hstart hstop hkind
      cases hcase.symm.trans hrun
  | case3 items s pos hkind found s' hcase _ ih =>
      obtain ⟨found', s'', hrun, hawaited, hnesting, hstart', hstop', -⟩ :=
        h.round_reaches ofFault hitem hmoves hcounted hstart hstop hkind
      cases hcase.symm.trans hrun
      rw [← hawaited, ← hnesting]
      exact ih (hawaited ▸ h) hstart' hstop'
  | case4 items s pos hkind found s' hcase hle =>
      obtain ⟨found', s'', hrun, -, -, -, -, hlt⟩ :=
        h.round_reaches ofFault hitem hmoves hcounted hstart hstop hkind
      cases hcase.symm.trans hrun
      exact absurd hlt hle

/-- A construct whose first token is followed by garbage goes on after the end of the garbage. -/
theorem construct_reaches {item : Parse α} {ofFault : Fault → α}
    {rest : Token → List α → Token → Parse Tree} {terminator : Kind} {s : State}
    (h : Garbage stream (s.awaited.map Awaited.kind) (stream.significant s.pos + 1) stop)
    (hkind : stream.kindAt stop = terminator) (hend : terminator ≠ .endOfInput)
    (hopen : (stream.next s.pos).kind ≠ .endOfInput) (hlt : stream.significant s.pos < stop)
    (hitem : Stays stream (stream.significant s.pos + 1) stop (fun _ => True) item)
    (hmoves : Moves stream (stream.significant s.pos + 1) stop item)
    (hcounted : ∀ n, Coincide n item item) :
    ∃ items nextId, (do
        let first ← advance stream
        let items ← itemsUntil stream terminator ofFault item []
        let last ← expect stream terminator
        rest first items last : Parse Tree) s =
      rest (stream.get (stream.significant s.pos)) items (stream.get stop)
        { s with pos := stop + 1, nextId } := by
  subst hkind
  obtain ⟨items, nextId, hitems⟩ := items_until_reaches ofFault hitem hmoves hcounted []
    { s with pos := stream.significant s.pos + 1 } h (Nat.le_refl _) hlt
  refine ⟨items, nextId, ?_⟩
  have hsignificant : stream.significant stop = stop :=
    TokenStream.significant_of_ne h.stop_ne_blank
  have hlast : expect stream (stream.kindAt stop) { s with pos := stop, nextId } =
      .ok (stream.get stop) { s with pos := stop + 1, nextId } := by
    rw [expect_of_kind hend (by rw [TokenStream.next, hsignificant]; rfl)]
    simp only [TokenStream.next, hsignificant]
  rw [bind_of_ok (advance_of_ne hopen), bind_of_ok hitems, bind_of_ok hlast]
  rfl

end Garbage

/-! ## Lets, functions and records -/

/-- A stretch is plain if nothing in it opens a construct that requires its last token. -/
theorem Plain.of_between {opener terminator : Kind} (hstop : stream.kindAt stop = terminator)
    (hends : terminator ∈ Kind.itemEnds)
    (honly : ∀ {kind rule}, Grammar.standard.prefixRule kind = some rule →
      terminator ∈ rule.closers → kind = opener)
    (hother : stream.Between start stop (· ∉ [opener, terminator])) :
    Plain stream (start + 1) stop := by
  obtain ⟨hstarts, hcontinues⟩ := Kind.no_rule_of_mem_item_ends terminator hends
  subst hstop
  refine ⟨hstarts, hcontinues, fun pos hge hpos rule hrule hmem => hother pos hge hpos ?_⟩
  rw [honly hrule hmem]
  exact List.mem_cons_self ..

section Constructs

variable {s : State} {operand : Power → Parse Tree}
  (hoperand : ∀ {start}, Plain stream start stop → ∀ power,
    Stays stream start stop (fun _ => True) (operand power))
  (hcounted : ∀ n power, Coincide n (operand power) (operand power))
  (hend : .endOfInput ∈ s.awaited.map Awaited.kind) (hblank : .blank ∉ s.awaited.map Awaited.kind)
  (hlt : stream.significant s.pos < stop)
  (hgarbage : stream.Between (stream.significant s.pos) stop (· ∉ s.awaited.map Awaited.kind))

include hend hblank hgarbage in
/-- What stands between the first token of a construct and its terminator is garbage. -/
theorem Garbage.of_between {terminator : Kind} (hstop : stream.kindAt stop = terminator)
    (hne : terminator ≠ .blank)
    (hother : stream.Between (stream.significant s.pos) stop (· ≠ terminator)) :
    Garbage stream (s.awaited.map Awaited.kind) (stream.significant s.pos + 1) stop := by
  subst hstop
  exact ⟨hend, hblank, hne, fun pos hge hpos => ⟨hgarbage pos hge hpos, hother pos hge hpos⟩⟩

include hoperand hcounted hend hblank hgarbage hlt

/-- A let comes to its body right after the next `in`, if there is no other let before it. -/
theorem let_reaches (hopen : stream.kindAt (stream.significant s.pos) = .letWord)
    (hstop : stream.kindAt stop = .inWord)
    (hother : stream.Between (stream.significant s.pos) stop (· ∉ [Kind.letWord, .inWord])) :
    ∃ items nextId, parsePrefix stream operand .letIn s =
      (do
        let body ← operand .letIn
        return .letIn (← freshId) (stream.get (stream.significant s.pos)) items (stream.get stop)
          body : Parse Tree) { s with pos := stop + 1, nextId } := by
  have hne (kind : Kind) (hkind : kind ≠ .inWord) : kind ≠ stream.kindAt stop := hstop ▸ hkind
  have hfree : Garbage stream (s.awaited.map Awaited.kind) (stream.significant s.pos + 1) stop := by
    refine .of_between hend hblank hgarbage hstop (by decide) fun pos hge hpos heq => ?_
    exact hother pos hge hpos (by simp [heq])
  have hstays := hoperand (Plain.of_between hstop (by decide) Grammar.kind_eq_let_word hother)
  have hdefinition := definition_stays hstays (hne _ (by decide)) (hne _ (by decide)) .letIn
  exact hfree.construct_reaches hstop (by decide) (ne_of_eq_of_ne hopen (by decide)) hlt
    (let_item_stays hstays (hne _ (by decide)) (hne _ (by decide)) (hne _ (by decide)))
    (let_item_moves hdefinition hstop) fun n => let_item_coincide (hcounted n)

omit hoperand hcounted in
/-- A function comes to its body right after the next arrow. -/
theorem function_reaches (hopen : stream.kindAt (stream.significant s.pos) = .fnWord)
    (hstop : stream.kindAt stop = .arrow)
    (hother : stream.Between (stream.significant s.pos) stop (· ≠ .arrow)) :
    ∃ params nextId, parsePrefix stream operand .function s =
      (do
        let body ← operand .function
        return .function (← freshId) (stream.get (stream.significant s.pos)) params
          (stream.get stop) body : Parse Tree) { s with pos := stop + 1, nextId } := by
  have hfree : Garbage stream (s.awaited.map Awaited.kind) (stream.significant s.pos + 1) stop :=
    .of_between hend hblank hgarbage hstop (by decide) hother
  have hname : .identifier ≠ stream.kindAt stop := by
    rw [hstop]
    decide
  exact hfree.construct_reaches hstop (by decide) (ne_of_eq_of_ne hopen (by decide)) hlt
    (param_stays hname) param_moves fun _ => param_coincide

/-- A record ends right after the next closing bracket, if no other record is opened before it. -/
theorem record_reaches (hopen : stream.kindAt (stream.significant s.pos) = .openCurly)
    (hstop : stream.kindAt stop = .closeCurly)
    (hother : stream.Between (stream.significant s.pos) stop
      (· ∉ [Kind.openCurly, .closeCurly])) :
    ∃ items nextId, parsePrefix stream operand .record s =
      .ok (.record nextId (stream.get (stream.significant s.pos)) items (stream.get stop))
        { s with pos := stop + 1, nextId := nextId + 1 } := by
  have hne (kind : Kind) (hkind : kind ≠ .closeCurly) : kind ≠ stream.kindAt stop := hstop ▸ hkind
  have hfree : Garbage stream (s.awaited.map Awaited.kind) (stream.significant s.pos + 1) stop := by
    refine .of_between hend hblank hgarbage hstop (by decide) fun pos hge hpos heq => ?_
    exact hother pos hge hpos (by simp [heq])
  have hstays := hoperand (Plain.of_between hstop (by decide) Grammar.kind_eq_open_curly hother)
  have hdefinition := definition_stays hstays (hne _ (by decide)) (hne _ (by decide)) .record
  exact hfree.construct_reaches hstop (by decide) (ne_of_eq_of_ne hopen (by decide)) hlt
    (record_item_stays hstays (hne _ (by decide)) (hne _ (by decide)) (hne _ (by decide)))
    (record_item_moves hdefinition) fun n => record_item_coincide (hcounted n)

end Constructs

end Parser

namespace Session

/-- A construct finds its terminator again. Where the constructs that are being parsed wait for the
end of input and for no blank token, let none of the tokens between two positions be of a kind that
they wait for. A let from the first position to the next `in` with no other let between goes on to
its body right after this `in`, a function goes on to its body right after the next arrow, and a
record ends right after the next closing bracket if no other record is opened before, all with the
awaited kinds and the number of expressions being parsed as they were. -/
theorem construct_finds_terminator (session : Session) {start stop : Nat}
    (hgrammar : session.grammar = .standard)
    (hend : .endOfInput ∈ session.state.awaited.map Parser.Awaited.kind)
    (hblank : .blank ∉ session.state.awaited.map Parser.Awaited.kind)
    (hstart : session.stream.significant session.state.pos = start) (hlt : start < stop)
    (hgarbage : session.stream.Between start stop
      (· ∉ session.state.awaited.map Parser.Awaited.kind)) :
    (session.stream.kindAt start = .letWord → session.stream.kindAt stop = .inWord →
      session.stream.Between start stop (· ∉ [Kind.letWord, .inWord]) →
      ∃ items nextId, session.byPrefixRule .letIn session.state =
        (do
          let body ← session.expression .letIn
          return .letIn (← Parser.freshId) (session.stream.get start) items
            (session.stream.get stop) body : Parser.Parse Tree)
          { session.state with pos := stop + 1, nextId }) ∧
    (session.stream.kindAt start = .fnWord → session.stream.kindAt stop = .arrow →
      session.stream.Between start stop (· ≠ .arrow) →
      ∃ params nextId, session.byPrefixRule .function session.state =
        (do
          let body ← session.expression .function
          return .function (← Parser.freshId) (session.stream.get start) params
            (session.stream.get stop) body : Parser.Parse Tree)
          { session.state with pos := stop + 1, nextId }) ∧
    (session.stream.kindAt start = .openCurly → session.stream.kindAt stop = .closeCurly →
      session.stream.Between start stop (· ∉ [Kind.openCurly, .closeCurly]) →
      ∃ items nextId, session.byPrefixRule .record session.state =
        .ok (.record nextId (session.stream.get start) items (session.stream.get stop))
          { session.state with pos := stop + 1, nextId := nextId + 1 }) := by
  subst hstart
  have hstays {start : Nat} (hplain : Parser.Plain session.stream start stop) (power : Power) :
      Parser.Stays session.stream start stop (fun _ => True) (session.expression power) := by
    intro s
    rw [expression, hgrammar]
    exact Parser.expression_stays hplain _ power s
  have hcounted (n : Nat) (power : Power) := (session.expression_coincides n power).right
  exact ⟨Parser.let_reaches hstays hcounted hend hblank hlt hgarbage,
    Parser.function_reaches hend hblank hlt hgarbage,
    Parser.record_reaches hstays hcounted hend hblank hlt hgarbage⟩

/-- A let inside a record, with an opening parenthesis, an operator, an invalid token and a function
before its `in`, while more expressions are being parsed than may be. -/
def garbled : Session where
  stream := .ofTokens #[⟨.letWord, "let", .empty .nowhere, false, none⟩,
    ⟨.openParen, "(", .empty .nowhere, false, none⟩,
    ⟨.star, "*", .empty .nowhere, false, none⟩,
    ⟨.invalid, "?", .empty .nowhere, false, none⟩,
    ⟨.fnWord, "fn", .empty .nowhere, false, none⟩,
    ⟨.inWord, "in", .empty .nowhere, false, none⟩,
    ⟨.identifier, "x", .empty .nowhere, false, none⟩]
  grammar := .standard
  state := ⟨0, [⟨.closeCurly, 3⟩, ⟨.endOfInput, 0⟩], 0, 200⟩

/-- The body of the garbled let is parsed from the token after its `in`. -/
theorem garbled_finds_in :
    garbled.stream.Between 0 5 (· ∉ garbled.state.awaited.map Parser.Awaited.kind) ∧
      garbled.stream.Between 0 5 (· ∉ [Kind.letWord, .inWord]) ∧
      ∃ items nextId, garbled.byPrefixRule .letIn garbled.state =
        (do
          let body ← garbled.expression .letIn
          return .letIn (← Parser.freshId) (garbled.stream.get 0) items (garbled.stream.get 5)
            body : Parser.Parse Tree) { garbled.state with pos := 6, nextId } := by
  have hgarbage : garbled.stream.Between 0 5
      (· ∉ garbled.state.awaited.map Parser.Awaited.kind) := by
    show ∀ pos, 1 ≤ pos → pos < 5 → _
    decide
  have hother : garbled.stream.Between 0 5 (· ∉ [Kind.letWord, .inWord]) := by
    show ∀ pos, 1 ≤ pos → pos < 5 → _
    decide
  have hstart : garbled.stream.significant garbled.state.pos = 0 :=
    TokenStream.significant_of_ne (by decide)
  exact ⟨hgarbage, hother, (construct_finds_terminator garbled rfl (by decide) (by decide) hstart
    (by decide) hgarbage).1 (by decide) (by decide) hother⟩

end Session

end LetScript
