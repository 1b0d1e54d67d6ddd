import LetScript.Proofs.Parser.Coverage
import LetScript.Proofs.Tree.Contents

/-!
# Invariants of the parser

An `Invariant` says where a parser may be in the stream, which kinds it may await and what the
faults are like that it makes. It is enough to check the single steps: skipping blank tokens,
passing a token that starts, continues or closes an expression, waiting for one more terminator,
and raising a fault. `expression_upholds` then gives the invariant of whole runs, for results as
well as for faults that are raised further.
-/

namespace LetScript

/-- The causes for which a parser raises faults itself. -/
def Cause.isSyntactic : Cause → Bool
  | unexpectedToken _ _ => true
  | cannotParseExpression _ => true
  | numberParseError _ => true
  | nestingTooDeep _ => true
  | _ => false

/-- A parser may raise a fault with a cause at a token. It refuses a number only if the text of the
token is no numeral. -/
def Cause.Fits (token : Token) : Cause → Prop
  | unexpectedToken _ received => received = token.value
  | cannotParseExpression text => text = token.value
  | numberParseError text =>
    text = token.value ∧ token.kind = .number ∧ Binary64.read? token.value = none
  | nestingTooDeep limit => limit = maxNesting ∨ limit = maxHeight
  | _ => False

/-- A cause that fits a token is one for which a parser raises faults. -/
theorem Cause.Fits.syntactic {token : Token} {cause : Cause} (h : cause.Fits token) :
    cause.isSyntactic := by
  cases cause with
  | unexpectedToken | cannotParseExpression | numberParseError | nestingTooDeep => rfl
  | _ => exact False.elim h

/-- The kinds of the tokens that a rule requires after the first one, apart from its operands. -/
def PrefixRule.closers : PrefixRule → List Kind
  | .function => [.identifier, .arrow]
  | .letIn => [.identifier, .equals, .semicolon, .inWord]
  | .record => [.identifier, .equals, .semicolon, .closeCurly]
  | .group => [.closeParen]
  | .identifier => []
  | .literal => []
  | .invalid => []
  | .placeholder => []
  | .sign => []

/-- The kinds of tokens that constructs wait for. -/
def Kind.terminators : List Kind := [.semicolon, .inWord, .closeCurly, .arrow, .closeParen]

/-- No construct waits for a blank token. -/
theorem Kind.ne_blank_of_mem_terminators : ∀ kind ∈ Kind.terminators, kind ≠ .blank := by
  decide

/-- The kinds of tokens that end an item or a list of items. -/
def Kind.itemEnds : List Kind := [.semicolon, .inWord, .closeCurly]

/-- The end of an item is not blank and no part of a definition. -/
theorem Kind.ne_of_mem_item_ends :
    ∀ kind ∈ Kind.itemEnds, kind ≠ .blank ∧ kind ≠ .identifier ∧ kind ≠ .equals := by
  decide

/-- The end of an item neither starts nor continues an expression. -/
theorem Kind.no_rule_of_mem_item_ends : ∀ kind ∈ Kind.itemEnds,
    Grammar.standard.prefixRule kind = none ∧ Grammar.standard.infixRule kind = none := by
  decide

namespace Parser

variable {α β : Type} {stream : TokenStream}

/-- A fault was raised at the current token of a state: the stream has skipped to the next token of
an awaited kind. -/
structure Raised (stream : TokenStream) (s : State) (fault : Fault) (s' : State) : Prop where
  token_eq : fault.token = stream.next s.pos
  fits : fault.diagnostic.cause.Fits fault.token
  position_eq : fault.diagnostic.position = fault.token.span.start
  pos_eq : s'.pos = stream.skipTo (s.awaited.map Awaited.kind) s.pos
  unwound : Unwound stream s fault s'

/-- Another token than the end of input is passed. -/
theorem advance_of_ne {s : State} (h : (stream.next s.pos).kind ≠ .endOfInput) :
    advance stream s =
      .ok (stream.next s.pos) { s with pos := stream.significant s.pos + 1 } := by
  have hkind : (stream.get (stream.significant s.pos)).kind ≠ .endOfInput := h
  simp only [advance, if_neg hkind]
  rfl

/-- What a parser keeps up: the positions it may be at, the kinds it may await, and the faults it
may make. -/
structure Invariant (stream : TokenStream) where
  within : Nat → Prop
  awaits : List Kind → Prop
  made : Fault → Prop
  /-- Blank tokens may be skipped. -/
  skip {pos : Nat} : within pos → within (stream.significant pos)
  /-- A token that starts an expression may be passed. -/
  opens {pos : Nat} {rule : PrefixRule} : within pos →
    Grammar.standard.prefixRule (stream.next pos).kind = some rule →
    within (stream.significant pos + 1)
  /-- Once an expression has started, the tokens that its rule requires may be passed. -/
  closes {pos : Nat} {rule : PrefixRule} {kind : Kind} : within pos →
    Grammar.standard.prefixRule (stream.next pos).kind = some rule → kind ∈ rule.closers →
    ∀ {pos' : Nat}, within pos' → (stream.next pos').kind = kind →
      within (stream.significant pos' + 1)
  /-- A token that continues an expression may be passed. -/
  continues {pos : Nat} {power : Power} {rule : InfixRule} : within pos →
    Grammar.standard.infixRule (stream.next pos).kind = some (power, rule) →
    within (stream.significant pos + 1)
  /-- A construct may wait for its terminator. -/
  await {kinds : List Kind} {kind : Kind} : awaits kinds → kind ∈ Kind.terminators →
    awaits (kind :: kinds)
  /-- A fault may be raised at the current token. -/
  raises {s s' : State} {fault : Fault} : s.Ready → within s.pos →
    awaits (s.awaited.map Awaited.kind) → Raised stream s fault s' → within s'.pos ∧ made fault
  /-- A fault may stand for an invalid token. -/
  leaf {pos : Nat} (id : NodeId) : within pos →
    Grammar.standard.prefixRule (stream.next pos).kind = some .invalid →
    made ⟨id, (stream.next pos).diagnostic.getD ⟨.unrecognisedSymbol, (stream.next pos).span.start⟩,
      stream.next pos, [stream.next pos]⟩

namespace Invariant

variable {inv : Invariant stream} {pre : Token → Prop} {post : α → Prop}

/-- A state in which the invariant holds. -/
structure Holds (inv : Invariant stream) (s : State) : Prop where
  ready : s.Ready
  within : inv.within s.pos
  awaits : inv.awaits (s.awaited.map Awaited.kind)

/-- The invariant is kept by an outcome, whose result has a property. -/
def Kept (inv : Invariant stream) (post : α → Prop) (s : State) :
    EStateM.Result Fault State α → Prop
  | .ok result s' => Follows stream s s' ∧ inv.within s'.pos ∧ post result
  | .error fault s' => Unwound stream s fault s' ∧ inv.within s'.pos ∧ inv.made fault

/-- A parser keeps the invariant if the next token has a property, and so does then its result. -/
def Upholds (inv : Invariant stream) (pre : Token → Prop) (p : Parse α) (post : α → Prop) : Prop :=
  ∀ s, inv.Holds s → pre (stream.next s.pos) → inv.Kept post s (p s)

/-- The invariant still holds after a result. -/
theorem Holds.of_follows {s s' : State} (h : inv.Holds s) (hfollows : Follows stream s s')
    (hwithin : inv.within s'.pos) : inv.Holds s' :=
  ⟨hfollows.ready h.ready, hwithin, hfollows.awaited_eq ▸ h.awaits⟩

/-- The invariant still holds after blank tokens were skipped. -/
theorem Holds.significant {s : State} (h : inv.Holds s) :
    inv.Holds { s with pos := stream.significant s.pos } :=
  h.of_follows (.significant stream s) (inv.skip h.within)

/-- The invariant still holds when a construct begins to wait. -/
theorem Holds.await {s : State} (h : inv.Holds s) {kind : Kind} (hkind : kind ∈ Kind.terminators) :
    inv.Holds { s with awaited := ⟨kind, s.pos⟩ :: s.awaited } :=
  ⟨h.ready.await (Kind.ne_blank_of_mem_terminators kind hkind), h.within, inv.await h.awaits hkind⟩

/-- An outcome after a result, seen from the state before it. -/
theorem Kept.of_follows {s s' : State} (h : Follows stream s s')
    {outcome : EStateM.Result Fault State α} (houtcome : inv.Kept post s' outcome) :
    inv.Kept post s outcome := by
  cases outcome with
  | ok result s'' => exact ⟨h.trans houtcome.1, houtcome.2⟩
  | error fault s'' => exact ⟨.of_follows h houtcome.1, houtcome.2⟩

/-- The faults of a tree may be made. -/
def Made (inv : Invariant stream) (faults : List Fault) : Prop := ∀ fault ∈ faults, inv.made fault

/-- A kind of token that may be passed. -/
def Passes (inv : Invariant stream) (kind : Kind) : Prop :=
  kind ≠ .endOfInput ∧ ∀ {pos : Nat}, inv.within pos → (stream.next pos).kind = kind →
    inv.within (stream.significant pos + 1)

/-- The tokens that a rule requires may be passed once it has started. -/
theorem passes_closers {pos : Nat} {rule : PrefixRule} (hpos : inv.within pos)
    (hrule : Grammar.standard.prefixRule (stream.next pos).kind = some rule) :
    ∀ kind ∈ rule.closers, inv.Passes kind := by
  have hend : ∀ rule : PrefixRule, .endOfInput ∉ rule.closers := by
    intro rule
    cases rule <;> decide
  exact fun kind hkind => ⟨fun heq => hend rule (heq ▸ hkind), inv.closes hpos hrule hkind⟩

namespace Upholds

/-- A parser after another one. -/
theorem bind {p : Parse α} {f : α → Parse β} {post' : β → Prop} (hp : inv.Upholds pre p post)
    (hf : ∀ value, post value → inv.Upholds (fun _ => True) (f value) post') :
    inv.Upholds pre (p >>= f) post' := by
  intro s hs hpre
  have hfirst := hp s hs hpre
  change inv.Kept post' s (EStateM.bind p f s)
  unfold EStateM.bind
  cases hcase : p s with
  | ok value s' =>
      rw [hcase] at hfirst
      obtain ⟨hfollows, hwithin, hvalue⟩ := hfirst
      exact .of_follows hfollows (hf value hvalue s' (hs.of_follows hfollows hwithin) trivial)
  | error fault s' =>
      rw [hcase] at hfirst
      exact hfirst

/-- More may be known about the next token. -/
theorem strengthen {p : Parse α} {pre' : Token → Prop} (hpre : ∀ token, pre' token → pre token)
    (hp : inv.Upholds pre p post) : inv.Upholds pre' p post :=
  fun s hs h => hp s hs (hpre _ h)

/-- Less may be said about the result. -/
theorem mono {p : Parse α} {post' : α → Prop} (hp : inv.Upholds pre p post)
    (hpost : ∀ value, post value → post' value) : inv.Upholds pre p post' := by
  intro s hs hpre
  have houtcome := hp s hs hpre
  revert houtcome
  cases p s with
  | ok result s' => exact fun ⟨hfollows, hwithin, hresult⟩ => ⟨hfollows, hwithin, hpost _ hresult⟩
  | error fault s' => exact id

/-- A result without a step. -/
theorem pure {value : α} (h : post value) : inv.Upholds pre (Pure.pure value) post := by
  intro s hs _
  exact ⟨.refl stream s, hs.within, h⟩

/-- A node takes a new identity. -/
theorem node {node : NodeId → α} (h : ∀ id, post (node id)) :
    inv.Upholds pre (freshId >>= fun id => Pure.pure (node id)) post := by
  intro s hs _
  exact ⟨⟨rfl, .refl stream s.pos⟩, hs.within, h _⟩

/-- One more expression keeps the invariant if what is inside it does. -/
theorem nested {p : Parse α} (hp : inv.Upholds pre p post) : inv.Upholds pre (nested p) post := by
  intro s hs hpre
  have hfollows := Follows.nesting stream s (s.nesting + 1)
  refine outcome_nested (fun _ s' nesting ⟨houtcome, hrest⟩ => ?_)
    (fun _ _ nesting ⟨houtcome, hrest⟩ => ⟨houtcome.nesting nesting, hrest⟩)
    (.of_follows hfollows (hp _ (hs.of_follows hfollows hs.within) hpre))
  exact ⟨houtcome.trans (.nesting stream s' nesting), hrest⟩

/-- The current token is looked at before the rest. -/
theorem current_bind {f : Token → Parse α}
    (hf : ∀ token, pre token → inv.Upholds (· = token) (f token) post) :
    inv.Upholds pre (current stream >>= f) post := by
  intro s hs hpre
  refine .of_follows (.significant stream s) (hf _ hpre _ hs.significant ?_)
  exact stream.next_significant s.pos

/-- The kind of the current token is looked at before the rest. -/
theorem current_kind_bind {f : Kind → Parse α}
    (hf : ∀ kind, inv.Upholds (fun token => pre token ∧ token.kind = kind) (f kind) post) :
    inv.Upholds pre (currentKind stream >>= f) post := by
  intro s hs hpre
  refine .of_follows (.significant stream s) (hf _ _ hs.significant ?_)
  show pre (stream.next (stream.significant s.pos)) ∧
    (stream.next (stream.significant s.pos)).kind = (stream.next s.pos).kind
  rw [stream.next_significant]
  exact ⟨hpre, rfl⟩

/-- The current token is passed before the rest, if the invariant allows it. -/
theorem advance_bind {f : Token → Parse α} (hend : ∀ token, pre token → token.kind ≠ .endOfInput)
    (hpass : ∀ pos, inv.within pos → pre (stream.next pos) →
      inv.within (stream.significant pos + 1))
    (hf : ∀ pos, inv.within pos → pre (stream.next pos) →
      inv.Upholds (fun _ => True) (f (stream.next pos)) post) :
    inv.Upholds pre (advance stream >>= f) post := by
  intro s hs hpre
  have hkind := hend _ hpre
  have hwithin := hpass _ hs.within hpre
  have hfollows : Follows stream s { s with pos := stream.significant s.pos + 1 } :=
    ⟨rfl, (stream.passes_significant s.pos).trans (.succ hkind)⟩
  change inv.Kept post s (EStateM.bind (advance stream) f s)
  rw [EStateM.bind, advance_of_ne hkind]
  exact .of_follows hfollows (hf _ hs.within hpre _ (hs.of_follows hfollows hwithin) trivial)

/-- A fault raised at the current token. -/
theorem raise {cause : Cause} {token : Token} (hcause : cause.Fits token) :
    inv.Upholds (· = token) (Parser.raise stream cause token) post := by
  intro s hs htoken
  have hunwound : Unwound stream s _ _ :=
    raise_parses cause token (fun _ (_ : α) _ _ => False) s hs.ready
  refine ⟨hunwound, inv.raises hs.ready hs.within hs.awaits ?_⟩
  exact ⟨htoken.symm, hcause, rfl, rfl, hunwound⟩

/-- A fault raised after looking at the current token. -/
theorem raise_here {cause : Cause} (hcause : ∀ token, cause.Fits token) :
    inv.Upholds pre (raiseHere stream cause) post :=
  current_bind fun token _ => raise (hcause token)

/-- A token of a given kind is passed, if the invariant allows it, or a fault is raised. -/
theorem expect {kind : Kind} (hpass : inv.Passes kind) :
    inv.Upholds pre (Parser.expect stream kind) fun _ => True := by
  refine current_bind fun token _ => ?_
  by_cases hkind : token.kind = kind
  · rw [if_pos hkind]
    have hadvance : inv.Upholds (· = token) (advance stream >>= Pure.pure) fun _ => True :=
      advance_bind (fun _ heq => heq ▸ hkind ▸ hpass.1)
        (fun pos hpos heq => hpass.2 hpos (heq ▸ hkind)) fun _ _ _ => pure trivial
    exact hadvance
  · rw [if_neg hkind]
    exact raise rfl

/-- The end of input is found, or a fault is raised. -/
theorem expect_end : inv.Upholds pre (Parser.expect stream .endOfInput) fun _ => True := by
  refine current_bind fun token _ => ?_
  by_cases hkind : token.kind = .endOfInput
  · rw [if_pos hkind]
    intro s hs htoken
    have hnext : (stream.get (stream.significant s.pos)).kind = .endOfInput :=
      (congrArg Token.kind htoken).trans hkind
    simp only [advance, if_pos hnext]
    exact ⟨.significant stream s, inv.skip hs.within, trivial⟩
  · rw [if_neg hkind]
    exact raise rfl

/-- A part that a fault may stand for. -/
theorem recovering {kind : Kind} (hkind : kind ∈ Kind.terminators) {body : Parse α}
    {ofFault : Fault → α} (hbody : inv.Upholds (fun _ => True) body post)
    (hfault : ∀ fault, inv.made fault → post (ofFault fault)) :
    inv.Upholds pre (recovering stream kind ofFault body) post := by
  intro s hs _
  have hblank := Kind.ne_blank_of_mem_terminators kind hkind
  have houtcome := hbody _ (hs.await hkind) trivial
  cases hcase : body { s with awaited := ⟨kind, s.pos⟩ :: s.awaited } with
  | ok result s' =>
      rw [hcase] at houtcome
      obtain ⟨hfollows, hwithin, hpost⟩ := houtcome
      simp only [Parser.recovering, hcase]
      exact ⟨⟨by simp [hfollows.awaited_eq], hfollows.passes⟩, hwithin, hpost⟩
  | error fault s' =>
      rw [hcase] at houtcome
      obtain ⟨hunwound, hwithin, hmade⟩ := houtcome
      obtain ⟨htaken, hraised⟩ := recovering_of_error hblank ofFault hs.ready hcase hunwound
      by_cases hstop : stream.kindAt s'.pos = kind
      · obtain ⟨hresult, hfollows, -⟩ := htaken hstop
        rw [hresult]
        exact ⟨hfollows, hwithin, hfault fault hmade⟩
      · obtain ⟨hresult, hunwound⟩ := hraised hstop
        rw [hresult]
        exact ⟨hunwound, hwithin, hmade⟩

/-- Items up to a terminator. -/
theorem items_until {terminator : Kind} (hterminator : terminator ∈ Kind.terminators)
    {item : Parse α} (ofFault : Fault → α) (hitem : inv.Upholds (fun _ => True) item post)
    (hfault : ∀ fault, inv.made fault → post (ofFault fault)) {items : List α}
    (hitems : ∀ found ∈ items, post found) :
    inv.Upholds (fun _ => True) (itemsUntil stream terminator ofFault item items) fun all =>
      ∀ found ∈ all, post found := by
  have hfound :
      inv.Upholds (fun _ => True) (Parser.recovering stream terminator ofFault item) post :=
    hitem.recovering hterminator hfault
  have hstep (s : State) (hs : inv.Holds s) :=
    Kept.of_follows (.significant stream s) (hfound _ hs.significant trivial)
  intro s hs _
  fun_induction itemsUntil stream terminator ofFault item items s with
  | case1 items s pos hkind =>
      refine ⟨.significant stream s, inv.skip hs.within, fun found hfound => ?_⟩
      exact hitems found (List.mem_reverse.1 hfound)
  | case2 items s pos hkind fault s' hcase =>
      have houtcome := hstep s hs
      rw [hcase] at houtcome
      exact houtcome
  | case3 items s pos hkind found s' hcase _ ih =>
      have houtcome := hstep s hs
      rw [hcase] at houtcome
      obtain ⟨hfollows, hwithin, hfound⟩ := houtcome
      exact .of_follows hfollows (ih (List.forall_mem_cons.2 ⟨hfound, hitems⟩)
        (hs.of_follows hfollows hwithin))
  | case4 items s pos hkind found s' hcase _ =>
      have houtcome := hstep s hs
      rw [hcase] at houtcome
      obtain ⟨hfollows, hwithin, hfound⟩ := houtcome
      refine ⟨hfollows, hwithin, fun other hother => ?_⟩
      exact List.forall_mem_cons.2 ⟨hfound, hitems⟩ other (List.mem_reverse.1 hother)

end Upholds

end Invariant

/-! ## The invariant of an expression -/

section Layers

variable {inv : Invariant stream} {operand : Power → Parse Tree}

/-- A parameter keeps the invariant. -/
theorem param_upholds (hname : inv.Passes .identifier) :
    inv.Upholds (fun _ => True) (param stream) fun param =>
      ∀ fault, param.fault? = some fault → inv.made fault :=
  (Invariant.Upholds.expect hname).bind fun _ _ => .node fun _ _ h => nomatch h

variable (hoperand : ∀ power, inv.Upholds (fun _ => True) (operand power) fun tree =>
  inv.Made tree.faults)

include hoperand

/-- A definition keeps the invariant. -/
theorem definition_upholds (hname : inv.Passes .identifier) (hequals : inv.Passes .equals)
    (power : Power) :
    inv.Upholds (fun _ => True) (definition stream operand power) fun item =>
      inv.Made item.faults :=
  (Invariant.Upholds.expect hname).bind fun _ _ => (Invariant.Upholds.expect hequals).bind
    fun _ _ => (hoperand power).bind fun _ hvalue => .node fun _ => hvalue

/-- An item of a let keeps the invariant. -/
theorem let_item_upholds (hclosers : ∀ kind ∈ PrefixRule.letIn.closers, inv.Passes kind) :
    inv.Upholds (fun _ => True) (letItem stream operand) fun item => inv.Made item.faults := by
  have hdefinition := definition_upholds hoperand (hclosers .identifier (by decide))
    (hclosers .equals (by decide)) .letIn
  refine (hdefinition.recovering (by decide) fun fault hfault => ?_).bind fun item hitem =>
    .current_kind_bind fun kind => ?_
  · exact List.forall_mem_singleton.2 hfault
  · split
    · exact (Invariant.Upholds.expect (hclosers .semicolon (by decide))).bind fun _ _ =>
        .pure hitem
    · exact .pure hitem

/-- An item of a record keeps the invariant. -/
theorem record_item_upholds (hclosers : ∀ kind ∈ PrefixRule.record.closers, inv.Passes kind) :
    inv.Upholds (fun _ => True) (recordItem stream operand) fun item => inv.Made item.faults := by
  have hdefinition := definition_upholds hoperand (hclosers .identifier (by decide))
    (hclosers .equals (by decide)) .record
  refine (hdefinition.recovering (by decide) fun fault hfault => ?_).bind fun item hitem =>
    (Invariant.Upholds.expect (hclosers .semicolon (by decide))).bind fun _ _ => .pure hitem
  exact List.forall_mem_singleton.2 hfault

omit hoperand in
/-- The first token of an expression is passed before the rest. -/
theorem start_upholds {rule : PrefixRule} {f : Token → Parse Tree}
    (hf : ∀ pos, inv.within pos → Grammar.standard.prefixRule (stream.next pos).kind = some rule →
      inv.Upholds (fun _ => True) (f (stream.next pos)) fun tree => inv.Made tree.faults) :
    inv.Upholds (fun token => Grammar.standard.prefixRule token.kind = some rule)
      (advance stream >>= f) fun tree => inv.Made tree.faults :=
  .advance_bind (fun _ => Grammar.kind_ne_end) (fun _ => inv.opens) hf

omit hoperand in
/-- The items up to a terminator keep the invariant. -/
theorem items_uphold {terminator : Kind} (hterminator : terminator ∈ Kind.terminators)
    {item : Parse Item}
    (hitem : inv.Upholds (fun _ => True) item fun item => inv.Made item.faults) :
    inv.Upholds (fun _ => True) (itemsUntil stream terminator .fault item []) fun items =>
      inv.Made (Item.listFaults items) := by
  have hitems := hitem.items_until hterminator Item.fault
    (fun _ => List.forall_mem_singleton.2) fun _ h => absurd h List.not_mem_nil
  refine hitems.mono fun items h fault hfault => ?_
  rw [Item.list_faults_eq] at hfault
  obtain ⟨item, hitem, hfault⟩ := List.mem_flatMap.1 hfault
  exact h item hitem fault hfault

/-- An expression that starts with a token keeps the invariant. -/
theorem parse_prefix_upholds (rule : PrefixRule) :
    inv.Upholds (fun token => Grammar.standard.prefixRule token.kind = some rule)
      (parsePrefix stream operand rule) fun tree => inv.Made tree.faults := by
  have hnone {tree : Tree} (h : tree.faults = []) : inv.Made tree.faults := by
    rw [h]
    exact fun _ hfault => absurd hfault List.not_mem_nil
  cases rule with
  | identifier => exact start_upholds fun _ _ _ => .node fun _ => hnone rfl
  | literal =>
      refine .current_bind fun token htoken => ?_
      split
      · next hvalue =>
          have hkind : token.kind = .number := List.mem_singleton.1 (Grammar.mem_starts htoken)
          exact .raise ⟨rfl, hkind, hvalue⟩
      · exact .strengthen (by rintro _ rfl; exact htoken)
          (start_upholds fun _ _ _ => .node fun _ => hnone rfl)
  | invalid => exact start_upholds fun pos hpos hrule => .node fun id =>
      List.forall_mem_singleton.2 (inv.leaf id hpos hrule)
  | placeholder => exact start_upholds fun _ _ _ => .node fun _ => hnone rfl
  | function =>
      refine start_upholds fun pos hpos hrule => ?_
      have hclosers := inv.passes_closers hpos hrule
      have hparams := (param_upholds (hclosers .identifier (by decide))).items_until
        (show Kind.arrow ∈ Kind.terminators by decide) Param.fault
        (fun fault hfault _ h => Option.some.inj h ▸ hfault) fun _ h => absurd h List.not_mem_nil
      refine hparams.bind fun params hparams =>
        (Invariant.Upholds.expect (hclosers .arrow (by decide))).bind fun _ _ =>
        (hoperand .function).bind fun body hbody => .node fun _ fault hfault => ?_
      rcases List.mem_append.1 hfault with hfault | hfault
      · obtain ⟨param, hparam, heq⟩ := List.mem_filterMap.1 hfault
        exact hparams param hparam fault heq
      · exact hbody fault hfault
  | letIn =>
      refine start_upholds fun pos hpos hrule => ?_
      have hclosers := inv.passes_closers hpos hrule
      refine (items_uphold (by decide) (let_item_upholds hoperand hclosers)).bind
        fun items hitems =>
        (Invariant.Upholds.expect (hclosers .inWord (by decide))).bind fun _ _ =>
        (hoperand .letIn).bind fun body hbody => .node fun _ => ?_
      exact List.forall_mem_append.2 ⟨hitems, hbody⟩
  | record =>
      refine start_upholds fun pos hpos hrule => ?_
      have hclosers := inv.passes_closers hpos hrule
      exact (items_uphold (by decide) (record_item_upholds hoperand hclosers)).bind
        fun items hitems => (Invariant.Upholds.expect (hclosers .closeCurly (by decide))).bind
        fun _ _ => .node fun _ => hitems
  | group =>
      refine start_upholds fun pos hpos hrule => ?_
      have hclosers := inv.passes_closers hpos hrule
      exact ((hoperand .lowest).recovering (by decide) fun _ => List.forall_mem_singleton.2).bind
        fun inner hinner => (Invariant.Upholds.expect (hclosers .closeParen (by decide))).bind
        fun _ _ => .node fun _ => hinner
  | sign =>
      exact start_upholds fun _ _ _ => (hoperand .additive).bind fun _ htree => .node fun _ => htree

/-- What continues an expression keeps the invariant. -/
theorem parse_infix_upholds (power : Power) (rule : InfixRule) :
    inv.Upholds (fun token => Grammar.standard.infixRule token.kind = some (power, rule))
      (parseInfix stream operand power rule) fun continuation =>
        inv.Made continuation.faults := by
  cases rule with
  | binary =>
      exact .advance_bind (fun _ => Grammar.infix_kind_ne_end) (fun _ => inv.continues)
        fun _ _ _ => (hoperand power).bind fun _ hright => .node fun _ => hright
  | apply =>
      exact .strengthen (fun _ _ => trivial)
        ((hoperand .apply).bind fun _ hargument => .node fun _ => hargument)

/-- Continuing an expression keeps the invariant. -/
theorem continue_from_upholds (floor : Power) (left : Tree) (height : Nat)
    (hleft : inv.Made left.faults) :
    inv.Upholds (fun _ => True) (continueFrom stream .standard operand floor left height)
      fun tree => inv.Made tree.faults := by
  induction left, height using continueFrom.induct with
  | case1 left height ih =>
      rw [continueFrom]
      refine .current_kind_bind fun kind => ?_
      split
      · exact .pure hleft
      · next power rule hrule =>
          split
          · have hcontinuation := parse_infix_upholds hoperand power rule
            refine (hcontinuation.strengthen fun _ h => h.2 ▸ hrule).bind
              fun continuation hmade => ?_
            have hattach : inv.Made (continuation.attach left).faults := by
              rw [Continuation.faults_attach]
              exact List.forall_mem_append.2 ⟨hleft, hmade⟩
            by_cases hle : max height continuation.height + 1 ≤ maxHeight
            · simp only [dif_pos hle]
              exact ih continuation hle hattach
            · simp only [dif_neg hle]
              exact .raise_here fun _ => .inr rfl
          · exact .pure hleft

end Layers

/-- Every expression that is parsed keeps the invariant, and so do the faults in it. -/
theorem expression_upholds (inv : Invariant stream) (room : Nat) (floor : Power) :
    inv.Upholds (fun _ => True) (expression stream .standard room floor) fun tree =>
      inv.Made tree.faults := by
  -- operands are parsed with less room, whatever power they are parsed above
  induction room generalizing floor with
  | zero => exact .raise_here fun _ => .inl rfl
  | succ room ih =>
      refine .nested (.current_bind fun token _ => ?_)
      split
      · exact .raise rfl
      · next rule hrule =>
          exact ((parse_prefix_upholds ih rule).strengthen (by rintro _ rfl; exact hrule)).bind
            fun left hleft => continue_from_upholds ih floor left left.height hleft

/-- A whole program keeps the invariant. -/
theorem program_upholds (inv : Invariant stream) :
    inv.Upholds (fun _ => True) (program stream .standard) fun tree => inv.Made tree.faults :=
  (expression_upholds inv maxNesting .lowest).bind fun _ htree =>
    Invariant.Upholds.expect_end.bind fun _ _ => .pure htree

end Parser

/-- The faults of a parsed tree are such as the parser may make. -/
theorem Tree.parse_made {tokens : Array Token} (inv : Parser.Invariant (.ofTokens tokens))
    (hstart : inv.within 0) (hawaits : inv.awaits [.endOfInput]) :
    ∀ fault ∈ (Tree.parse tokens).faults, inv.made fault := by
  have houtcome := Parser.program_upholds inv {} ⟨Parser.State.ready_initial, hstart, hawaits⟩
    trivial
  unfold Tree.parse Tree.parseWith
  split
  next tree s' hcase =>
    rw [hcase] at houtcome
    exact houtcome.2.2
  next fault s' hcase =>
    rw [hcase] at houtcome
    exact List.forall_mem_singleton.2 houtcome.2.2

end LetScript
