import LetScript.Proofs.Parser.Acceptance
import LetScript.Proofs.Parser.Coverage
import LetScript.Proofs.Parser.Forms
import LetScript.Proofs.Parser.Invariant

/-!
# Parsing before a closing token

What an item is read as depends on its own tokens only. If a token that closes items stands in each
of two streams, with the same tokens before it, and constructs wait for the same kinds, then the
parsers of expressions have the same outcome in both: they give results of the same height and leave
the same tokens, or they raise faults (`Settings.expression_agrees`). Neither of them passes the
closing token, if no let and no record is opened before it.
-/

namespace LetScript.Parser

/-- Two streams, in each of which a token closes an item. The tokens are of the same kind. -/
structure Settings where
  first : TokenStream
  second : TokenStream
  stop : Nat
  stop' : Nat
  closer : Token
  closer' : Token
  rest : List Token
  rest' : List Token
  kind_eq : closer'.kind = closer.kind
  closes : closer.kind ∈ Kind.itemEnds

namespace Settings

/-- The same tokens are ahead of two positions up to the closing tokens, and none of them opens a
let or a record. -/
def At (m : Settings) (pos pos' : Nat) : Prop :=
  ∃ w, (∀ token ∈ w, token.kind ∉ [Kind.letWord, .openCurly]) ∧
    Ahead m.first m.stop pos (w ++ m.closer :: m.rest) ∧
    Ahead m.second m.stop' pos' (w ++ m.closer' :: m.rest')

variable {m : Settings}

/-- The closing token is neither the end of input nor of a kind that an expression passes. -/
theorem kind_ne {kind : Kind} (h : kind ∉ Kind.itemEnds) : kind ≠ m.closer.kind := by
  rintro rfl
  exact h m.closes

namespace At

variable {pos pos' start start' : Nat}

/-- Either the closing tokens come next, or the same token does, and it can be passed. -/
theorem next_cases (h : m.At pos pos') :
    (m.first.next pos = m.closer ∧ m.second.next pos' = m.closer') ∨
      (m.second.next pos' = m.first.next pos ∧
        (m.first.next pos).kind ∉ [Kind.letWord, .openCurly, .endOfInput] ∧
        m.At (m.first.significant pos + 1) (m.second.significant pos' + 1)) := by
  obtain ⟨w, hflat, hfirst, hsecond⟩ := h
  cases w with
  | nil => exact .inl ⟨hfirst.of_cons.1, hsecond.of_cons.1⟩
  | cons token w =>
      obtain ⟨hnext, hend, hrest⟩ := hfirst.of_cons
      obtain ⟨hnext', -, hrest'⟩ := hsecond.of_cons
      obtain ⟨htoken, hflat⟩ := List.forall_mem_cons.1 hflat
      refine .inr ⟨hnext'.trans hnext.symm, ?_, w, hflat, hrest, hrest'⟩
      rw [hnext]
      simp only [List.mem_cons, List.not_mem_nil, or_false, not_or] at htoken ⊢
      exact ⟨htoken.1, htoken.2, hend⟩

/-- A token of the same kind comes next at both positions. -/
theorem next_kind (h : m.At pos pos') : (m.second.next pos').kind = (m.first.next pos).kind := by
  rcases h.next_cases with ⟨hnext, hnext'⟩ | ⟨hnext, -⟩
  · rw [hnext, hnext', m.kind_eq]
  · rw [hnext]

/-- Tokens of the same kind stand at both positions, if they are not blank. -/
theorem kind_eq (h : m.At pos pos') (hblank : m.first.kindAt pos ≠ .blank)
    (hblank' : m.second.kindAt pos' ≠ .blank) : m.second.kindAt pos' = m.first.kindAt pos := by
  have hkind := h.next_kind
  rwa [TokenStream.next_of_ne hblank, TokenStream.next_of_ne hblank'] at hkind

/-- Blank tokens may be skipped in the first stream only. -/
theorem significant_first (h : m.At pos pos') : m.At (m.first.significant pos) pos' := by
  obtain ⟨w, hflat, hfirst, hsecond⟩ := h
  exact ⟨w, hflat, hfirst.significant, hsecond⟩

/-- Blank tokens may be skipped in the second stream only. -/
theorem significant_second (h : m.At pos pos') : m.At pos (m.second.significant pos') := by
  obtain ⟨w, hflat, hfirst, hsecond⟩ := h
  exact ⟨w, hflat, hfirst, hsecond.significant⟩

/-- Skipping to some kinds does not pass the closing tokens, if theirs is among them. -/
theorem skip_to {kinds : List Kind} (h : m.At pos pos') (hcloser : m.closer.kind ∈ kinds)
    (hend : .endOfInput ∈ kinds) (hblank : .blank ∉ kinds) :
    m.At (m.first.skipTo kinds pos) (m.second.skipTo kinds pos') := by
  obtain ⟨w, hflat, hfirst, hsecond⟩ := h
  have hdrop {closer : Token} (rest : List Token) (hcloser : closer.kind ∈ kinds) :
      (w ++ closer :: rest).dropWhile (fun token => decide (token.kind ∉ kinds)) =
        w.dropWhile (fun token => decide (token.kind ∉ kinds)) ++ closer :: rest := by
    rw [List.dropWhile_append, List.dropWhile_cons_of_neg (by simpa using hcloser)]
    split
    · next hempty => rw [List.isEmpty_iff.1 hempty, List.nil_append]
    · rfl
  refine ⟨_, ?_, hdrop m.rest hcloser ▸ hfirst.skip_to hend hblank,
    hdrop m.rest' (m.kind_eq ▸ hcloser) ▸ hsecond.skip_to hend hblank⟩
  exact fun token htoken => hflat token ((List.dropWhile_suffix _).subset htoken)

/-- The same tokens stand between two pairs of positions. -/
theorem window_eq (hstart : m.At start start') (h : m.At pos pos') (hle : start ≤ pos)
    (hle' : start' ≤ pos') : m.second.window start' pos' = m.first.window start pos := by
  obtain ⟨w, -, hfirst, hsecond⟩ := h
  obtain ⟨v, -, hfrom, hfrom'⟩ := hstart
  have hwindow : m.first.window start pos ++ w = v := by
    have heq := (TokenStream.window_append hle hfirst.passes.le).trans hfrom.window_eq
    rw [hfirst.window_eq, ← List.append_assoc] at heq
    exact List.append_cancel_right heq
  have hwindow' : m.second.window start' pos' ++ w = v := by
    have heq := (TokenStream.window_append hle' hsecond.passes.le).trans hfrom'.window_eq
    rw [hsecond.window_eq, ← List.append_assoc] at heq
    exact List.append_cancel_right heq
  exact List.append_cancel_right (hwindow'.trans hwindow.symm)

end At

/-! ## Outcomes that agree -/

/-- Two states with the same tokens ahead in which constructs wait for the same kinds, that of the
closing tokens among them. -/
structure Alike (m : Settings) (s s' : State) : Prop where
  ready : s.Ready
  ready' : s'.Ready
  kinds_eq : s'.awaited.map Awaited.kind = s.awaited.map Awaited.kind
  awaits : m.closer.kind ∈ s.awaited.map Awaited.kind
  pos : m.At s.pos s'.pos

/-- Two outcomes agree: both are results, which `f` does not tell apart, or both are faults, and the
same tokens are ahead after them. -/
def Agree {α γ : Type} (m : Settings) (f : α → γ) (s s' : State) :
    EStateM.Result Fault State α → EStateM.Result Fault State α → Prop
  | .ok result t, .ok result' t' => f result = f result' ∧ Follows m.first s t ∧
      Follows m.second s' t' ∧ m.At t.pos t'.pos
  | .error fault t, .error fault' t' => Unwound m.first s fault t ∧ Unwound m.second s' fault' t' ∧
      t'.awaited.map Awaited.kind = t.awaited.map Awaited.kind ∧ m.At t.pos t'.pos
  | _, _ => False

variable {α β γ δ : Type} {f : α → γ} {g : β → δ} {pre : Token → Prop} {s s' t t' : State}

/-- States that follow two alike ones are alike, if the same tokens are ahead of them. -/
theorem Alike.of_follows (h : m.Alike s s') (hfollows : Follows m.first s t)
    (hfollows' : Follows m.second s' t') (hpos : m.At t.pos t'.pos) : m.Alike t t' where
  ready := hfollows.ready h.ready
  ready' := hfollows'.ready h.ready'
  kinds_eq := by rw [hfollows.awaited_eq, hfollows'.awaited_eq, h.kinds_eq]
  awaits := hfollows.awaited_eq ▸ h.awaits
  pos := hpos

/-- Blank tokens may be skipped in two alike states. -/
theorem Alike.significant (h : m.Alike s s') :
    m.Alike { s with pos := m.first.significant s.pos }
      { s' with pos := m.second.significant s'.pos } :=
  h.of_follows (.significant m.first s) (.significant m.second s')
    h.pos.significant_first.significant_second

/-- Constructs may begin to wait for the same kind in two alike states. -/
theorem Alike.await (h : m.Alike s s') {kind : Kind} (hblank : kind ≠ .blank) :
    m.Alike { s with awaited := ⟨kind, s.pos⟩ :: s.awaited }
      { s' with awaited := ⟨kind, s'.pos⟩ :: s'.awaited } where
  ready := h.ready.await hblank
  ready' := h.ready'.await hblank
  kinds_eq := congrArg (List.cons kind) h.kinds_eq
  awaits := List.mem_cons_of_mem _ h.awaits
  pos := h.pos

namespace Agree

variable {outcome outcome' : EStateM.Result Fault State α}

/-- A result agrees with a result. -/
theorem of_ok {result : α} (h : m.Agree f s s' (.ok result t) outcome') :
    ∃ result' t', outcome' = .ok result' t' ∧ f result = f result' ∧ Follows m.first s t ∧
      Follows m.second s' t' ∧ m.At t.pos t'.pos := by
  cases outcome' with
  | ok result' t' => exact ⟨result', t', rfl, h⟩
  | error fault' t' => exact h.elim

/-- A fault agrees with a fault. -/
theorem of_error {fault : Fault} (h : m.Agree f s s' (.error fault t) outcome') :
    ∃ fault' t', outcome' = .error fault' t' ∧ Unwound m.first s fault t ∧
      Unwound m.second s' fault' t' ∧
      t'.awaited.map Awaited.kind = t.awaited.map Awaited.kind ∧ m.At t.pos t'.pos := by
  cases outcome' with
  | ok result' t' => exact h.elim
  | error fault' t' => exact ⟨fault', t', rfl, h⟩

/-- Outcomes after two results, seen from the states before them. -/
theorem of_follows (hfollows : Follows m.first s t) (hfollows' : Follows m.second s' t')
    (h : m.Agree f t t' outcome outcome') : m.Agree f s s' outcome outcome' := by
  cases outcome with
  | ok result u =>
      obtain ⟨result', u', rfl, heq, hfirst, hsecond, hpos⟩ := h.of_ok
      exact ⟨heq, hfollows.trans hfirst, hfollows'.trans hsecond, hpos⟩
  | error fault u =>
      obtain ⟨fault', u', rfl, hfirst, hsecond, hrest⟩ := h.of_error
      exact ⟨.of_follows hfollows hfirst, .of_follows hfollows' hsecond, hrest⟩

end Agree

/-- Unwinding to a kind depends on the awaited kinds only. -/
theorem unwind_kinds (kind : Kind) {here here' : Nat} {awaited awaited' : List Awaited}
    (h : awaited'.map Awaited.kind = awaited.map Awaited.kind) :
    (unwind kind here' awaited').2.map Awaited.kind =
      (unwind kind here awaited).2.map Awaited.kind := by
  induction awaited generalizing awaited' with
  | nil =>
      rw [List.map_eq_nil_iff.1 h]
      rfl
  | cons entry awaited ih =>
      obtain ⟨entry', rest', rfl, hentry, hrest⟩ := List.map_eq_cons_iff.1 h
      by_cases hkind : entry.kind = kind
      · simp only [unwind, if_pos hkind, if_pos (hentry.trans hkind)]
        exact hrest
      · simp only [unwind, if_neg hkind, if_neg (hentry ▸ hkind)]
        exact ih hrest

/-- Two parsers agree from alike states, if the next token has a property. -/
def Agrees (m : Settings) (pre : Token → Prop) (p p' : Parse α) (f : α → γ) : Prop :=
  ∀ s s', m.Alike s s' → pre (m.first.next s.pos) → m.Agree f s s' (p s) (p' s')

namespace Agrees

/-- Parsers one after the other agree. -/
theorem bind {p p' : Parse α} {k k' : α → Parse β} (hp : m.Agrees pre p p' f)
    (hk : ∀ value value', f value = f value' →
      m.Agrees (fun _ => True) (k value) (k' value') g) :
    m.Agrees pre (p >>= k) (p' >>= k') g := by
  intro s s' hs hpre
  have hfirst := hp s s' hs hpre
  change m.Agree g s s' (EStateM.bind p k s) (EStateM.bind p' k' s')
  unfold EStateM.bind
  cases hcase : p s with
  | ok value t =>
      rw [hcase] at hfirst
      obtain ⟨value', t', hcase', heq, hfollows, hfollows', hpos⟩ := hfirst.of_ok
      rw [hcase']
      exact .of_follows hfollows hfollows'
        (hk value value' heq t t' (hs.of_follows hfollows hfollows' hpos) trivial)
  | error fault t =>
      rw [hcase] at hfirst
      obtain ⟨fault', t', hcase', hagree⟩ := hfirst.of_error
      rw [hcase']
      exact hagree

/-- More may be known about the next token. -/
theorem strengthen {p p' : Parse α} {pre' : Token → Prop} (hpre : ∀ token, pre' token → pre token)
    (hp : m.Agrees pre p p' f) : m.Agrees pre' p p' f :=
  fun s s' hs h => hp s s' hs (hpre _ h)

/-- Results without a step agree. -/
theorem pure {value value' : α} (h : f value = f value') :
    m.Agrees pre (Pure.pure value) (Pure.pure value') f :=
  fun s s' hs _ => ⟨h, .refl m.first s, .refl m.second s', hs.pos⟩

/-- Nodes agree whatever their identities are. -/
theorem node {node node' : NodeId → α} (h : ∀ id id', f (node id) = f (node' id')) :
    m.Agrees pre (freshId >>= fun id => Pure.pure (node id))
      (freshId >>= fun id => Pure.pure (node' id)) f :=
  fun s s' hs _ => ⟨h s.nextId s'.nextId, ⟨rfl, .refl m.first s.pos⟩,
    ⟨rfl, .refl m.second s'.pos⟩, hs.pos⟩

/-- Expressions are entered and left together. -/
theorem nested {p p' : Parse α} (hp : m.Agrees pre p p' f) :
    m.Agrees pre (nested p) (nested p') f := by
  intro s s' hs hpre
  have hfollows := Follows.nesting m.first s (s.nesting + 1)
  have hfollows' := Follows.nesting m.second s' (s'.nesting + 1)
  have houtcome := Agree.of_follows hfollows hfollows'
    (hp _ _ (hs.of_follows hfollows hfollows' hs.pos) hpre)
  unfold Parser.nested
  cases hcase : p { s with nesting := s.nesting + 1 } with
  | ok value t =>
      rw [hcase] at houtcome
      obtain ⟨value', t', hcase', heq, hfirst, hsecond, hpos⟩ := houtcome.of_ok
      rw [hcase']
      exact ⟨heq, hfirst.trans (.nesting ..), hsecond.trans (.nesting ..), hpos⟩
  | error fault t =>
      rw [hcase] at houtcome
      obtain ⟨fault', t', hcase', hfirst, hsecond, hrest⟩ := houtcome.of_error
      rw [hcase']
      exact ⟨hfirst.nesting _, hsecond.nesting _, hrest⟩

/-- The current tokens are looked at before the rest. -/
theorem current_bind {k k' : Token → Parse α}
    (hk : ∀ token token', pre token → token'.kind = token.kind →
      (token.kind ≠ m.closer.kind → token' = token) →
      m.Agrees (· = token) (k token) (k' token') f) :
    m.Agrees pre (current m.first >>= k) (current m.second >>= k') f := by
  intro s s' hs hpre
  refine .of_follows (.significant m.first s) (.significant m.second s')
    (hk _ _ hpre hs.pos.next_kind ?_ _ _ hs.significant ?_)
  · intro hne
    rcases hs.pos.next_cases with ⟨hnext, -⟩ | ⟨hnext, -⟩
    · exact absurd (congrArg Token.kind hnext) hne
    · exact hnext
  · exact m.first.next_significant s.pos

/-- The kinds of the current tokens are looked at before the rest. -/
theorem current_kind_bind {k k' : Kind → Parse α}
    (hk : ∀ kind, m.Agrees (fun token => pre token ∧ token.kind = kind) (k kind) (k' kind) f) :
    m.Agrees pre (currentKind m.first >>= k) (currentKind m.second >>= k') f := by
  intro s s' hs hpre
  change m.Agree f s s' (k (m.first.next s.pos).kind _) (k' (m.second.next s'.pos).kind _)
  rw [hs.pos.next_kind]
  refine .of_follows (.significant m.first s) (.significant m.second s')
    (hk _ _ _ hs.significant ?_)
  rw [m.first.next_significant]
  exact ⟨hpre, rfl⟩

/-- The same token is passed, if it does not close an item. -/
theorem advance (hpre : ∀ token, pre token → token.kind ≠ m.closer.kind) :
    m.Agrees pre (Parser.advance m.first) (Parser.advance m.second) id := by
  intro s s' hs h
  rcases hs.pos.next_cases with ⟨hnext, -⟩ | ⟨hnext, hkind, hpos⟩
  · exact absurd (congrArg Token.kind hnext) (hpre _ h)
  · have hend : (m.first.next s.pos).kind ≠ .endOfInput := fun heq => hkind (by simp [heq])
    have hend' : (m.second.next s'.pos).kind ≠ .endOfInput := hnext ▸ hend
    rw [advance_of_ne hend, advance_of_ne hend']
    exact ⟨hnext.symm, ⟨rfl, (m.first.passes_significant s.pos).trans (.succ hend)⟩,
      ⟨rfl, (m.second.passes_significant s'.pos).trans (.succ hend')⟩, hpos⟩

/-- Faults are raised together. -/
theorem raise (cause cause' : Cause) (token token' : Token) :
    m.Agrees pre (Parser.raise m.first cause token) (Parser.raise m.second cause' token') f := by
  intro s s' hs _
  have hfirst : Unwound m.first s _ _ :=
    raise_parses cause token (fun _ (_ : α) _ _ => False) s hs.ready
  have hsecond : Unwound m.second s' _ _ :=
    raise_parses cause' token' (fun _ (_ : α) _ _ => False) s' hs.ready'
  have hpos : m.At (m.first.skipTo (s.awaited.map Awaited.kind) s.pos)
      (m.second.skipTo (s'.awaited.map Awaited.kind) s'.pos) := by
    rw [hs.kinds_eq]
    exact hs.pos.skip_to hs.awaits hs.ready.awaits_end hs.ready.no_blank
  refine ⟨hfirst, hsecond, ?_, hpos⟩
  have hkind := hpos.kind_eq (hfirst.kind_ne_blank hs.ready) (hsecond.kind_ne_blank hs.ready')
  change (unwind (m.second.kindAt _) _ s'.awaited).2.map Awaited.kind = _
  rw [hkind]
  exact unwind_kinds _ hs.kinds_eq

/-- Faults are raised together at the current tokens. -/
theorem raise_here (cause : Cause) :
    m.Agrees pre (raiseHere m.first cause) (raiseHere m.second cause) f :=
  current_bind fun token token' _ _ _ => raise cause cause token token'

/-- The same token is passed, if it is of another kind than the closing ones, or faults are raised
together. -/
theorem expect {kind : Kind} (hkind : kind ∉ Kind.itemEnds) :
    m.Agrees pre (Parser.expect m.first kind) (Parser.expect m.second kind) id := by
  refine current_bind fun token token' _ heq _ => ?_
  by_cases htoken : token.kind = kind
  · rw [if_pos htoken, if_pos (heq.trans htoken)]
    refine advance fun next hnext => ?_
    rw [hnext, htoken]
    exact kind_ne hkind
  · rw [if_neg htoken, if_neg (heq ▸ htoken)]
    exact raise _ _ token token'

/-- Faults are taken together by parts that wait for the same terminator. -/
theorem recovering {terminator : Kind} (hblank : terminator ≠ .blank) {ofFault : Fault → α}
    {body body' : Parse α} (hbody : m.Agrees (fun _ => True) body body' f)
    (hfault : ∀ fault fault', f (ofFault fault) = f (ofFault fault')) :
    m.Agrees pre (Parser.recovering m.first terminator ofFault body)
      (Parser.recovering m.second terminator ofFault body') f := by
  intro s s' hs _
  have houtcome := hbody _ _ (hs.await hblank) trivial
  cases hcase : body { s with awaited := ⟨terminator, s.pos⟩ :: s.awaited } with
  | ok result t =>
      rw [hcase] at houtcome
      obtain ⟨result', t', hcase', heq, hfollows, hfollows', hpos⟩ := houtcome.of_ok
      obtain ⟨hrun, hfollows⟩ := recovering_of_ok ofFault hcase hfollows
      obtain ⟨hrun', hfollows'⟩ := recovering_of_ok ofFault hcase' hfollows'
      rw [hrun, hrun']
      exact ⟨heq, hfollows, hfollows', hpos⟩
  | error fault t =>
      rw [hcase] at houtcome
      obtain ⟨fault', t', hcase', hunwound, hunwound', hkinds, hpos⟩ := houtcome.of_error
      obtain ⟨htaken, hraised⟩ := recovering_of_error hblank ofFault hs.ready hcase hunwound
      obtain ⟨htaken', hraised'⟩ := recovering_of_error hblank ofFault hs.ready' hcase' hunwound'
      -- both runs are at a token of the same kind, so both take the fault or none does
      have hkind := hpos.kind_eq (hunwound.kind_ne_blank (hs.ready.await hblank))
        (hunwound'.kind_ne_blank (hs.ready'.await hblank))
      by_cases hterminator : m.first.kindAt t.pos = terminator
      · obtain ⟨hrun, hfollows, -⟩ := htaken hterminator
        obtain ⟨hrun', hfollows', -⟩ := htaken' (hkind.trans hterminator)
        rw [hrun, hrun']
        exact ⟨hfault fault fault', hfollows, hfollows', hpos⟩
      · obtain ⟨hrun, hunwound⟩ := hraised hterminator
        obtain ⟨hrun', hunwound'⟩ := hraised' (hkind ▸ hterminator)
        rw [hrun, hrun']
        exact ⟨hunwound, hunwound', hkinds, hpos⟩

/-- Items are parsed together up to a terminator. Where blank tokens are skipped the loop may look
once more for an item after one that has passed no token, but then the terminator comes next. -/
theorem items_until {terminator : Kind} (hblank : terminator ≠ .blank) {item item' : Parse α}
    {R : Reading α} (ofFault : Fault → α) (hitem : Parses m.first item R)
    (hprogress : ∀ first result next, first.kind ≠ terminator → R first result [] next →
      next.kind = terminator)
    (h : m.Agrees (fun _ => True) item item' fun _ => ()) (items items' : List α) :
    m.Agrees (fun _ => True) (itemsUntil m.first terminator ofFault item items)
      (itemsUntil m.second terminator ofFault item' items') fun _ => () := by
  have hrecovering : m.Agrees (fun _ => True) (Parser.recovering m.first terminator ofFault item)
      (Parser.recovering m.second terminator ofFault item') fun _ => () :=
    recovering hblank h fun _ _ => rfl
  have hstep (s s' : State) (hs : m.Alike s s') := Agree.of_follows (.significant m.first s)
    (.significant m.second s') (hrecovering _ _ hs.significant trivial)
  have hread (s : State) (hs : s.Ready) :=
    (recovering_parses hblank ofFault hitem _
      ((Follows.significant m.first s).ready hs)).of_significant
  -- an item that has passed no token in one of the runs has ended at the terminator
  have hstopped {s s' t t' : State} {found : α} (hs : m.Alike s s')
      (hne : (m.first.next s.pos).kind ≠ terminator) (hpos : m.At t.pos t'.pos)
      (hfirst : Accords m.first (.recovered terminator ofFault R) s (.ok found t))
      (hfollows : Follows m.second s' t')
      (hnone : m.first.window s.pos t.pos = [] ∨ m.second.window s'.pos t'.pos = []) :
      (m.first.next t.pos).kind = terminator := by
    obtain ⟨hfollows₁, hread⟩ := hfirst
    rw [hs.pos.window_eq hpos hfollows₁.passes.le hfollows.passes.le, or_self] at hnone
    rw [hnone] at hread
    rcases hread with hread | ⟨_, _, _, hnext⟩
    · exact hprogress _ _ _ hne hread
    · exact hnext
  intro s s' hs _
  fun_induction itemsUntil m.first terminator ofFault item items s generalizing s' items' with
  | case1 items s pos hkind =>
      rw [items_until_end ofFault item' _ (hs.pos.next_kind.trans hkind)]
      exact ⟨rfl, .significant m.first s, .significant m.second s', hs.significant.pos⟩
  | case2 items s pos hkind fault t hcase =>
      have hagree := hstep s s' hs
      rw [items_until_of_ne ofFault item' _ (hs.pos.next_kind ▸ hkind)]
      rw [hcase] at hagree
      obtain ⟨fault', t', hcase', hraised⟩ := hagree.of_error
      rw [hcase']
      exact hraised
  | case3 items s pos hkind found t hcase hlt ih =>
      have hagree := hstep s s' hs
      have hfirst := hread s hs.ready
      rw [items_until_of_ne ofFault item' _ (hs.pos.next_kind ▸ hkind)]
      rw [hcase] at hagree hfirst
      obtain ⟨found', t', hcase', -, hfollows, hfollows', hpos⟩ := hagree.of_ok
      rw [hcase']
      by_cases hlt' : m.second.remaining t'.pos < m.second.remaining s'.pos
      · simp only [if_pos hlt']
        exact .of_follows hfollows hfollows'
          (ih (found' :: items') t' (hs.of_follows hfollows hfollows' hpos))
      · simp only [if_neg hlt']
        have hend := hstopped hs hkind hpos hfirst hfollows' <| .inr <|
          TokenStream.window_of_remaining_le hfollows'.passes.le (Nat.le_of_not_lt hlt')
        rw [items_until_end ofFault item _ hend]
        exact ⟨rfl, hfollows.trans (.significant m.first t), hfollows', hpos.significant_first⟩
  | case4 items s pos hkind found t hcase hle =>
      have hagree := hstep s s' hs
      have hfirst := hread s hs.ready
      rw [items_until_of_ne ofFault item' _ (hs.pos.next_kind ▸ hkind)]
      rw [hcase] at hagree hfirst
      obtain ⟨found', t', hcase', -, hfollows, hfollows', hpos⟩ := hagree.of_ok
      rw [hcase']
      have hend := hstopped hs hkind hpos hfirst hfollows' <| .inl <|
        TokenStream.window_of_remaining_le hfollows.passes.le (Nat.le_of_not_lt hle)
      by_cases hlt' : m.second.remaining t'.pos < m.second.remaining s'.pos
      · simp only [if_pos hlt']
        rw [items_until_end ofFault item' _ (hpos.next_kind.trans hend)]
        exact ⟨rfl, hfollows, hfollows'.trans (.significant m.second t'), hpos.significant_second⟩
      · simp only [if_neg hlt']
        exact ⟨rfl, hfollows, hfollows', hpos⟩

end Agrees

/-! ## Layers of an expression -/

section Layers

variable {operand operand' : Power → Parse Tree}

/-- Parameters are parsed together. -/
theorem param_agrees : m.Agrees (fun _ => True) (param m.first) (param m.second) fun _ => () :=
  (Agrees.expect (by decide)).bind fun _ _ _ => .node fun _ _ => rfl

variable (h : ∀ power, m.Agrees (fun _ => True) (operand power) (operand' power) Tree.height)

include h

/-- Definitions are parsed together. -/
theorem definition_agrees (power : Power) :
    m.Agrees (fun _ => True) (definition m.first operand power)
      (definition m.second operand' power) fun _ => () :=
  (Agrees.expect (by decide)).bind fun _ _ _ => (Agrees.expect (by decide)).bind fun _ _ _ =>
    (h power).bind fun _ _ _ => .node fun _ _ => rfl

omit h in
/-- The closing tokens start no expression. -/
theorem kind_ne_of_rule {kind : Kind} {rule : PrefixRule}
    (hrule : Grammar.standard.prefixRule kind = some rule) : kind ≠ m.closer.kind := by
  rintro rfl
  rw [(Kind.no_rule_of_mem_item_ends _ m.closes).1] at hrule
  cases hrule

omit h in
/-- No let and no record starts before the closing tokens. -/
theorem rule_ne {pos pos' : Nat} {rule : PrefixRule} (hpos : m.At pos pos')
    (hrule : Grammar.standard.prefixRule (m.first.next pos).kind = some rule) :
    rule ≠ .letIn ∧ rule ≠ .record := by
  rcases hpos.next_cases with ⟨hnext, -⟩ | ⟨-, hkind, -⟩
  · exact absurd (congrArg Token.kind hnext) (kind_ne_of_rule hrule)
  · have hmem : (m.first.next pos).kind ∈ rule.starts := Grammar.mem_starts hrule
    constructor
    · rintro rfl
      exact hkind (by simp [List.mem_singleton.1 hmem])
    · rintro rfl
      exact hkind (by simp [List.mem_singleton.1 hmem])

omit h in
/-- The first token of an expression is passed before the rest. -/
theorem start_agrees {rule : PrefixRule} {k k' : Token → Parse Tree}
    (hk : ∀ token, m.Agrees (fun _ => True) (k token) (k' token) Tree.height) :
    m.Agrees (fun token => Grammar.standard.prefixRule token.kind = some rule)
      (advance m.first >>= k) (advance m.second >>= k') Tree.height := by
  refine (Agrees.advance fun _ hrule => kind_ne_of_rule hrule).bind fun token token' heq => ?_
  obtain rfl : token = token' := heq
  exact hk token

/-- The expressions of a rule are parsed together. No let and no record starts before the closing
tokens. -/
theorem parse_prefix_agrees (rule : PrefixRule) :
    m.Agrees (fun token => Grammar.standard.prefixRule token.kind = some rule)
      (parsePrefix m.first operand rule) (parsePrefix m.second operand' rule) Tree.height := by
  cases rule with
  | identifier | placeholder | invalid => exact start_agrees fun _ => .node fun _ _ => rfl
  | literal =>
      refine .current_bind fun token token' hrule _ heq => ?_
      obtain rfl := heq (kind_ne_of_rule hrule)
      cases Binary64.read? token'.value with
      | none => exact .raise _ _ token' token'
      | some value =>
          exact .strengthen (by rintro _ rfl; exact hrule)
            (start_agrees fun _ => .node fun _ _ => rfl)
  | function =>
      have hparams := Agrees.items_until (show Kind.arrow ≠ .blank by decide) Param.fault
        param_parses (fun _ _ _ _ => Reading.ParamName.progress) (param_agrees (m := m)) [] []
      refine start_agrees fun _ => hparams.bind fun _ _ _ =>
        (Agrees.expect (by decide)).bind fun _ _ _ => (h .function).bind fun body body' hbody =>
          .node fun _ _ => ?_
      rw [Tree.height, Tree.height, hbody]
  | letIn =>
      intro s s' hs hrule
      exact absurd rfl (rule_ne hs.pos hrule).1
  | record =>
      intro s s' hs hrule
      exact absurd rfl (rule_ne hs.pos hrule).2
  | group =>
      refine start_agrees fun _ => ((h .lowest).recovering (by decide) fun _ _ => rfl).bind
        fun inner inner' hinner => (Agrees.expect (by decide)).bind fun _ _ _ => .node fun _ _ => ?_
      rw [Tree.height, Tree.height, hinner]
  | sign =>
      refine start_agrees fun _ => (h .additive).bind fun tree tree' htree => .node fun _ _ => ?_
      rw [Tree.height, Tree.height, htree]

/-- What continues an expression is parsed together. -/
theorem parse_infix_agrees (power : Power) (rule : InfixRule) :
    m.Agrees (fun token => Grammar.standard.infixRule token.kind = some (power, rule))
      (parseInfix m.first operand power rule) (parseInfix m.second operand' power rule)
      Continuation.height := by
  cases rule with
  | binary =>
      refine (Agrees.advance fun token hrule heq => ?_).bind fun _ _ _ =>
        (h power).bind fun _ _ hright => .node fun _ _ => hright
      rw [heq, (Kind.no_rule_of_mem_item_ends _ m.closes).2] at hrule
      cases hrule
  | apply =>
      exact .strengthen (fun _ _ => trivial)
        ((h .apply).bind fun _ _ hargument => .node fun _ _ => hargument)

/-- Expressions of the same height are continued together. -/
theorem continue_from_agrees (floor : Power) {left left' : Tree} {height : Nat}
    (hheight : left.height = height) (hheight' : left'.height = height) :
    m.Agrees (fun _ => True) (continueFrom m.first .standard operand floor left height)
      (continueFrom m.second .standard operand' floor left' height) Tree.height := by
  induction left, height using continueFrom.induct generalizing left' with
  | case1 left height ih =>
      rw [continueFrom, continueFrom]
      refine .current_kind_bind fun kind => ?_
      cases hrule : Grammar.standard.infixRule kind with
      | none => exact .pure (hheight.trans hheight'.symm)
      | some found =>
          obtain ⟨power, rule⟩ := found
          by_cases hlt : floor < power
          · simp only [if_pos hlt]
            refine ((parse_infix_agrees h power rule).strengthen fun _ hnext =>
              hnext.2 ▸ hrule).bind fun continuation continuation' heq => ?_
            rw [← heq]
            by_cases hmax : max height continuation.height + 1 ≤ maxHeight
            · simp only [dif_pos hmax]
              refine ih continuation hmax ?_ ?_
              · rw [Continuation.height_attach, hheight]
              · rw [Continuation.height_attach, hheight', heq]
            · simp only [dif_neg hmax]
              exact .raise_here _
          · simp only [if_neg hlt]
            exact .pure (hheight.trans hheight'.symm)

end Layers

/-- Expressions are parsed together. -/
theorem expression_agrees (m : Settings) (room : Nat) (floor : Power) :
    m.Agrees (fun _ => True) (expression m.first .standard room floor)
      (expression m.second .standard room floor) Tree.height := by
  induction room generalizing floor with
  | zero => exact .raise_here _
  | succ room ih =>
      rw [expression, expression]
      refine .nested (.current_bind fun token token' _ hkind _ => ?_)
      rw [hkind]
      cases hrule : Grammar.standard.prefixRule token.kind with
      | none => exact .raise _ _ token token'
      | some rule =>
          refine ((parse_prefix_agrees ih rule).strengthen (by rintro _ rfl; exact hrule)).bind
            fun left left' hheight => ?_
          rw [hheight]
          exact continue_from_agrees ih floor hheight rfl

end Settings

end LetScript.Parser
