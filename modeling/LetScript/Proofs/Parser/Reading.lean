import LetScript.Parser.State
import LetScript.Proofs.Token.Window

/-!
# What a parser reads

`Parses stream p R` is the contract of a parser `p`: from every state in which faults can be
raised, `p` either gives a result or raises a fault. A result leaves the awaited kinds alone, and
the reading `R` relates it to the significant tokens that were passed and to the tokens that come
next before and after. A fault leaves the stream at a token of an awaited kind,
gives up the constructs down to the innermost one that awaits it, and has skipped the tokens from
the start of that construct on (`Unwound`). Contracts of the basic steps are proved here from their
definitions, and `Parses.bind` puts them together.
-/

namespace LetScript.Parser

/-- A state in which a fault can be raised: the end of input is awaited, no blank token is, and no
construct began to wait after the current position. -/
structure State.Ready (s : State) : Prop where
  awaits_end : .endOfInput ∈ s.awaited.map Awaited.kind
  no_blank : .blank ∉ s.awaited.map Awaited.kind
  started : ∀ entry ∈ s.awaited, entry.start ≤ s.pos

/-- The innermost construct that awaits a kind, and the constructs around it. -/
def Innermost (kind : Kind) (awaited : List Awaited) (entry : Awaited) (outer : List Awaited) :
    Prop :=
  entry.kind = kind ∧
    ∃ inner, awaited = inner ++ entry :: outer ∧ ∀ other ∈ inner, other.kind ≠ kind

/-- The state after a result: the awaited kinds are as before, and no end of input was passed. -/
structure Follows (stream : TokenStream) (s s' : State) : Prop where
  awaited_eq : s'.awaited = s.awaited
  passes : stream.Passes s.pos s'.pos

/-- The state after a fault: the stream is at a token of an awaited kind, the constructs down to
the innermost one that awaits it are given up, and the fault covers the tokens from its start. -/
structure Unwound (stream : TokenStream) (s : State) (fault : Fault) (s' : State) : Prop where
  passes : stream.Passes s.pos s'.pos
  innermost : ∃ entry, Innermost (stream.kindAt s'.pos) s.awaited entry s'.awaited ∧
    fault.skipped = stream.slice entry.start s'.pos

/-- How a result is read: from the token that comes next before, over the significant tokens that
are passed, to the token that comes next after. -/
abbrev Reading (α : Type) := Token → α → List Token → Token → Prop

/-- An outcome from a state is as its reading says. -/
def Accords {α : Type} (stream : TokenStream) (R : Reading α) (s : State) :
    EStateM.Result Fault State α → Prop
  | .ok result s' => Follows stream s s' ∧
      R (stream.next s.pos) result (stream.window s.pos s'.pos) (stream.next s'.pos)
  | .error fault s' => Unwound stream s fault s'

/-- The contract of a parser: its outcome is as the reading says, from every state in which faults
can be raised. -/
def Parses {α : Type} (stream : TokenStream) (p : Parse α) (R : Reading α) : Prop :=
  ∀ s : State, s.Ready → Accords stream R s (p s)

variable {α β : Type} {stream : TokenStream}

/-! ## The awaited kinds -/

/-- Unwinding to an awaited kind finds the innermost construct that awaits it. -/
theorem unwind_innermost {kind : Kind} {awaited : List Awaited} (here : Nat)
    (h : kind ∈ awaited.map Awaited.kind) :
    ∃ entry outer, Innermost kind awaited entry outer ∧
      unwind kind here awaited = (entry.start, outer) := by
  induction awaited with
  | nil => simp at h
  | cons first rest ih =>
      by_cases hfirst : first.kind = kind
      · exact ⟨first, rest, ⟨hfirst, [], rfl, by simp⟩, by simp [unwind, hfirst]⟩
      · have hrest : kind ∈ rest.map Awaited.kind := by
          simpa [Ne.symm hfirst] using h
        obtain ⟨entry, outer, ⟨hkind, inner, rfl, hinner⟩, hunwind⟩ := ih hrest
        refine ⟨entry, outer, ⟨hkind, first :: inner, rfl, ?_⟩, by simp [unwind, hfirst, hunwind]⟩
        intro other hother
        rcases List.mem_cons.1 hother with rfl | hother
        · exact hfirst
        · exact hinner other hother

namespace Innermost

variable {kind : Kind} {awaited outer : List Awaited} {entry : Awaited}

/-- The innermost construct is one of those that wait. -/
theorem mem (h : Innermost kind awaited entry outer) : entry ∈ awaited := by
  obtain ⟨-, inner, rfl, -⟩ := h
  simp

/-- The kind of the innermost construct is awaited. -/
theorem kind_mem (h : Innermost kind awaited entry outer) : kind ∈ awaited.map Awaited.kind :=
  List.mem_map.2 ⟨entry, h.mem, h.1⟩

/-- If the construct on top awaits the kind, it is the innermost one. -/
theorem of_cons_eq {first : Awaited} (h : Innermost kind (first :: awaited) entry outer)
    (hfirst : first.kind = kind) : entry = first ∧ outer = awaited := by
  obtain ⟨-, inner, heq, hinner⟩ := h
  cases inner with
  | nil =>
      obtain ⟨rfl, rfl⟩ := List.cons.inj heq
      exact ⟨rfl, rfl⟩
  | cons other inner =>
      obtain ⟨rfl, -⟩ := List.cons.inj heq
      exact absurd hfirst (hinner first (List.mem_cons_self ..))

/-- If the construct on top awaits another kind, the innermost one is below it. -/
theorem of_cons_ne {first : Awaited} (h : Innermost kind (first :: awaited) entry outer)
    (hfirst : first.kind ≠ kind) : Innermost kind awaited entry outer := by
  obtain ⟨hkind, inner, heq, hinner⟩ := h
  cases inner with
  | nil =>
      obtain ⟨rfl, -⟩ := List.cons.inj heq
      exact absurd hkind hfirst
  | cons other inner =>
      obtain ⟨-, rfl⟩ := List.cons.inj heq
      exact ⟨hkind, inner, rfl, fun other hother => hinner other (List.mem_cons_of_mem _ hother)⟩

end Innermost

/-! ## States after an outcome -/

namespace Follows

/-- Every state follows itself. -/
theorem refl (stream : TokenStream) (s : State) : Follows stream s s :=
  ⟨rfl, .refl stream s.pos⟩

/-- Skipping blank tokens leads to a state that follows. -/
theorem significant (stream : TokenStream) (s : State) :
    Follows stream s { s with pos := stream.significant s.pos } :=
  ⟨rfl, stream.passes_significant s.pos⟩

/-- Entering or leaving an expression leads to a state that follows. -/
theorem nesting (stream : TokenStream) (s : State) (nesting : Nat) :
    Follows stream s { s with nesting } :=
  ⟨rfl, .refl stream s.pos⟩

/-- What follows a state that follows another follows the first one. -/
theorem trans {s s' s'' : State} (h : Follows stream s s') (h' : Follows stream s' s'') :
    Follows stream s s'' :=
  ⟨h'.awaited_eq.trans h.awaited_eq, h.passes.trans h'.passes⟩

/-- Faults can still be raised in a state that follows. -/
theorem ready {s s' : State} (h : Follows stream s s') (hs : s.Ready) : s'.Ready := by
  refine ⟨?_, ?_, ?_⟩
  · rw [h.awaited_eq]
    exact hs.awaits_end
  · rw [h.awaited_eq]
    exact hs.no_blank
  · rw [h.awaited_eq]
    exact fun entry hentry => Nat.le_trans (hs.started entry hentry) h.passes.le

end Follows

namespace Unwound

/-- A fault that was raised after a result was raised since the state before it. -/
theorem of_follows {s s' s'' : State} {fault : Fault} (h : Follows stream s s')
    (h' : Unwound stream s' fault s'') : Unwound stream s fault s'' :=
  ⟨h.passes.trans h'.passes, h.awaited_eq ▸ h'.innermost⟩

/-- An expression may be left with a fault. -/
theorem nesting {s s' : State} {fault : Fault} (h : Unwound stream s fault s') (nesting : Nat) :
    Unwound stream s fault { s' with nesting } :=
  ⟨h.passes, h.innermost⟩

/-- After a fault the current token is not blank, so nothing more is skipped. -/
theorem kind_ne_blank {s s' : State} {fault : Fault} (h : Unwound stream s fault s')
    (hs : s.Ready) : stream.kindAt s'.pos ≠ .blank := by
  obtain ⟨entry, hentry, -⟩ := h.innermost
  exact fun hblank => hs.no_blank (hblank ▸ hentry.kind_mem)

end Unwound

/-- An outcome after a result, seen from the state before it. -/
theorem Accords.of_follows {R S : Reading α} {s s' : State} (h : Follows stream s s')
    (hR : ∀ result w next, R (stream.next s'.pos) result w next →
      S (stream.next s.pos) result (stream.window s.pos s'.pos ++ w) next)
    {outcome : EStateM.Result Fault State α} (houtcome : Accords stream R s' outcome) :
    Accords stream S s outcome := by
  cases outcome with
  | ok result s'' =>
      refine ⟨h.trans houtcome.1, ?_⟩
      rw [← TokenStream.window_append h.passes.le houtcome.1.passes.le]
      exact hR _ _ _ houtcome.2
  | error fault s'' => exact Unwound.of_follows h houtcome

/-- An outcome after the blank tokens at a state were skipped, seen from this state. -/
theorem Accords.of_significant {R : Reading α} {s : State}
    {outcome : EStateM.Result Fault State α}
    (h : Accords stream R { s with pos := stream.significant s.pos } outcome) :
    Accords stream R s outcome := by
  refine .of_follows (.significant stream s) (fun result w next hR => ?_) h
  rw [stream.window_significant, List.nil_append]
  rwa [stream.next_significant] at hR

/-- An outcome inside one more expression, seen from the state before it. -/
theorem Accords.nested {R : Reading α} {s : State} {body : Parse α}
    (h : Accords stream R { s with nesting := s.nesting + 1 }
      (body { s with nesting := s.nesting + 1 })) :
    Accords stream R s (nested body s) := by
  have hfollows := Follows.nesting stream s (s.nesting + 1)
  refine outcome_nested (fun result s' nesting houtcome => ?_)
    (fun fault s' nesting houtcome => Unwound.nesting houtcome nesting)
    (.of_follows hfollows (fun result w next hread => ?_) h)
  · exact ⟨houtcome.1.trans (.nesting stream s' nesting), houtcome.2⟩
  · rw [TokenStream.window_self]
    exact hread

/-! ## Contracts put together -/

namespace Reading

/-- One reading after another: the tokens are read in this order. -/
def seq (R : Reading α) (S : α → Reading β) : Reading β := fun first result w next =>
  ∃ value w₁ w₂ middle, w = w₁ ++ w₂ ∧ R first value w₁ middle ∧ S value middle result w₂ next

/-- Nothing is read. -/
def nothing (P : Token → α → Prop) : Reading α := fun first result w next =>
  P first result ∧ w = [] ∧ next = first

/-- One token is read, or none at the end of input. -/
def one : Reading Token := fun first token w next =>
  token = first ∧ (first.kind = .endOfInput → w = [] ∧ next = first) ∧
    (first.kind ≠ .endOfInput → w = [token])

/-- Either the part is read as it should be, or a fault stands for it: then the skipped tokens are
read, and the terminator comes next. -/
def recovered (terminator : Kind) (ofFault : Fault → α) (R : Reading α) : Reading α :=
  fun first result w next => R first result w next ∨
    ∃ fault, result = ofFault fault ∧ w = Token.significant fault.skipped ∧ next.kind = terminator

/-- Items are read one after another until the terminator comes next. -/
inductive Items (terminator : Kind) (R : Reading α) : Reading (List α)
  | done {next : Token} : next.kind = terminator → Items terminator R next [] [] next
  | item {first middle next : Token} {result : α} {results : List α} {w w' : List Token} :
      first.kind ≠ terminator → R first result w middle →
      Items terminator R middle results w' next →
      Items terminator R first (result :: results) (w ++ w') next

/-- The terminator comes next after the items. -/
theorem Items.kind_next {terminator : Kind} {first next : Token} {R : Reading α}
    {results : List α} {w : List Token} (h : Items terminator R first results w next) :
    next.kind = terminator := by
  induction h with
  | done h => exact h
  | item _ _ _ ih => exact ih

/-- There are no items if the terminator comes next before them. -/
theorem Items.eq_nil {terminator : Kind} {first next : Token} {R : Reading α}
    {results : List α} {w : List Token} (h : Items terminator R first results w next)
    (hfirst : first.kind = terminator) : results = [] ∧ w = [] := by
  cases h with
  | done _ => exact ⟨rfl, rfl⟩
  | item hne _ _ => exact absurd hfirst hne

end Reading

namespace Parses

/-- A contract may be weakened. -/
theorem mono {p : Parse α} {R S : Reading α} (h : Parses stream p R)
    (hRS : ∀ first result w next, R first result w next → S first result w next) :
    Parses stream p S := by
  intro s hs
  have houtcome := h s hs
  revert houtcome
  cases p s with
  | ok result s' => exact fun houtcome => ⟨houtcome.1, hRS _ _ _ _ houtcome.2⟩
  | error fault s' => exact id

/-- A parser after another one reads what the two read. -/
theorem bind {p : Parse α} {f : α → Parse β} {R : Reading α} {S : α → Reading β}
    (hp : Parses stream p R) (hf : ∀ value, Parses stream (f value) (S value)) :
    Parses stream (p >>= f) (R.seq S) := by
  intro s hs
  have hfirst := hp s hs
  change Accords stream _ s (EStateM.bind p f s)
  unfold EStateM.bind
  cases hcase : p s with
  | ok value s' =>
      rw [hcase] at hfirst
      refine .of_follows hfirst.1 (fun result w next h => ?_) (hf value s' (hfirst.1.ready hs))
      exact ⟨value, _, w, _, rfl, hfirst.2, h⟩
  | error fault s' =>
      rw [hcase] at hfirst
      exact hfirst

/-- A result may be changed after it was read. -/
theorem map {p : Parse α} {R : Reading α} (f : α → β) (hp : Parses stream p R) :
    Parses stream (f <$> p) fun first result w next =>
      ∃ value, result = f value ∧ R first value w next := by
  intro s hs
  have houtcome := hp s hs
  change Accords stream _ s (EStateM.map f p s)
  unfold EStateM.map
  cases hcase : p s with
  | ok value s' =>
      rw [hcase] at houtcome
      exact ⟨houtcome.1, value, rfl, houtcome.2⟩
  | error fault s' =>
      rw [hcase] at houtcome
      exact houtcome

/-- One more expression reads what is inside it. -/
theorem nested {p : Parse α} {R : Reading α} (hp : Parses stream p R) :
    Parses stream (nested p) R :=
  fun s hs => .nested (hp _ ((Follows.nesting stream s _).ready hs))

/-- A value without a step reads nothing. -/
theorem pure (value : α) :
    Parses stream (Pure.pure value) (.nothing fun _ result => result = value) := by
  intro s _
  exact ⟨.refl stream s, rfl, TokenStream.window_self .., rfl⟩

end Parses

/-! ## The basic steps -/

/-- A new identity reads nothing. -/
theorem fresh_id_parses : Parses stream freshId (.nothing fun _ _ => True) := by
  intro s _
  exact ⟨⟨rfl, .refl stream s.pos⟩, trivial, TokenStream.window_self .., rfl⟩

/-- Looking at the current token reads nothing. -/
theorem current_parses :
    Parses stream (current stream) (.nothing fun first token => token = first) := by
  intro s _
  exact ⟨⟨rfl, stream.passes_significant s.pos⟩, rfl, stream.window_significant s.pos,
    stream.next_significant s.pos⟩

/-- Looking at the kind of the current token reads nothing. -/
theorem current_kind_parses :
    Parses stream (currentKind stream) (.nothing fun first kind => kind = first.kind) := by
  intro s _
  exact ⟨⟨rfl, stream.passes_significant s.pos⟩, rfl, stream.window_significant s.pos,
    stream.next_significant s.pos⟩

/-- Passing the current token reads it, unless it is the end of input. -/
theorem advance_parses : Parses stream (advance stream) .one := by
  intro s _
  by_cases hend : (stream.next s.pos).kind = .endOfInput
  · have hkind : (stream.get (stream.significant s.pos)).kind = .endOfInput := hend
    simp only [advance, hkind, if_true]
    refine ⟨⟨rfl, stream.passes_significant s.pos⟩, rfl, fun _ => ?_, fun hne => absurd hend hne⟩
    exact ⟨stream.window_significant s.pos, stream.next_significant s.pos⟩
  · have hkind : (stream.get (stream.significant s.pos)).kind ≠ .endOfInput := hend
    simp only [advance, hkind, if_false]
    refine ⟨⟨rfl, (stream.passes_significant s.pos).trans (.succ hend)⟩, rfl,
      fun heq => absurd heq hend, fun _ => ?_⟩
    exact TokenStream.window_significant_succ hend

/-- A raised fault unwinds to the innermost construct that awaits the token it skips to. -/
theorem raise_parses (cause : Cause) (token : Token) (R : Reading α) :
    Parses stream (raise stream cause token) R := by
  intro s hs
  let pos := stream.skipTo (s.awaited.map Awaited.kind) s.pos
  have hpasses : stream.Passes s.pos pos := stream.passes_skip_to s.pos hs.awaits_end
  have hmem := stream.kind_at_skip_to_mem s.pos hs.awaits_end
  obtain ⟨entry, outer, hentry, hunwind⟩ := unwind_innermost pos hmem
  -- no construct starts after the current token, so the fault covers all from its start
  have hstart : entry.start ≤ pos := Nat.le_trans (hs.started entry hentry.mem) hpasses.le
  change Unwound stream s _ { s with
    pos, awaited := (unwind (stream.kindAt pos) pos s.awaited).2, nextId := s.nextId + 1 }
  rw [hunwind]
  refine ⟨hpasses, entry, hentry, ?_⟩
  simp [pos, Nat.min_eq_left hstart]

/-- A fault raised at the current token unwinds like any other. -/
theorem raise_here_parses (cause : Cause) (R : Reading α) :
    Parses stream (raiseHere stream cause) R :=
  (current_parses.bind fun token => raise_parses cause token fun _ _ _ _ => False).mono
    fun _ _ _ _ ⟨_, _, _, _, _, _, hfalse⟩ => hfalse.elim

/-- Passing a token of a given kind reads it, and finds the kind next. -/
theorem expect_parses (kind : Kind) :
    Parses stream (expect stream kind) fun first token w next =>
      token.kind = kind ∧ Reading.one first token w next := by
  intro s hs
  refine (current_parses.bind (S := fun token => fun first result w next =>
    token.kind = kind ∧ Reading.one first result w next) fun token => ?_).mono ?_ s hs
  · by_cases hkind : token.kind = kind
    · rw [if_pos hkind]
      exact advance_parses.mono fun _ _ _ _ h => ⟨hkind, h⟩
    · rw [if_neg hkind]
      exact raise_parses _ _ _
  · rintro first result w next ⟨token, w₁, w₂, middle, rfl, ⟨rfl, rfl, rfl⟩, hkind, hone⟩
    exact ⟨hone.1 ▸ hkind, hone⟩

/-! ## Recovery -/

/-- Waiting for a terminator as well does not prevent faults from being raised. -/
theorem State.Ready.await {s : State} (hs : s.Ready) {terminator : Kind}
    (hblank : terminator ≠ .blank) :
    State.Ready { s with awaited := ⟨terminator, s.pos⟩ :: s.awaited } := by
  refine ⟨?_, ?_, ?_⟩
  · exact List.mem_cons_of_mem _ hs.awaits_end
  · simpa [Ne.symm hblank] using hs.no_blank
  · intro entry hentry
    rcases List.mem_cons.1 hentry with rfl | hentry
    · exact Nat.le_refl s.pos
    · exact hs.started entry hentry

/-- A part that gives a result ceases to wait for its terminator. -/
theorem recovering_of_ok {terminator : Kind} {body : Parse α} (ofFault : Fault → α) {s s' : State}
    {result : α}
    (hcase : body { s with awaited := ⟨terminator, s.pos⟩ :: s.awaited } = .ok result s')
    (h : Follows stream { s with awaited := ⟨terminator, s.pos⟩ :: s.awaited } s') :
    recovering stream terminator ofFault body s =
        .ok result { s' with awaited := s'.awaited.tail } ∧
      Follows stream s { s' with awaited := s'.awaited.tail } := by
  refine ⟨?_, by simp [h.awaited_eq], h.passes⟩
  rw [recovering, hcase]

/-- A fault that was raised while a part waits for its terminator is taken by the part if the stream
is at the terminator, and the awaited kinds are then as before the part. Any other fault is raised
further, and the constructs around the part see it as if the part had never waited. -/
theorem recovering_of_error {terminator : Kind} (hblank : terminator ≠ .blank) {body : Parse α}
    (ofFault : Fault → α) {s s' : State} (hs : s.Ready) {fault : Fault}
    (hcase : body { s with awaited := ⟨terminator, s.pos⟩ :: s.awaited } = .error fault s')
    (h : Unwound stream { s with awaited := ⟨terminator, s.pos⟩ :: s.awaited } fault s') :
    (stream.kindAt s'.pos = terminator →
      recovering stream terminator ofFault body s = .ok (ofFault fault) s' ∧
        Follows stream s s' ∧ fault.skipped = stream.slice s.pos s'.pos) ∧
    (stream.kindAt s'.pos ≠ terminator →
      recovering stream terminator ofFault body s = .error fault s' ∧
        Unwound stream s fault s') := by
  have hpos := TokenStream.significant_of_ne (h.kind_ne_blank (hs.await hblank))
  obtain ⟨entry, hentry, hskipped⟩ := h.innermost
  simp only [recovering, hcase, hpos]
  refine ⟨fun hkind => ?_, fun hkind => ?_⟩
  · -- the part itself is the innermost construct that awaits its terminator
    obtain ⟨rfl, houter⟩ := hentry.of_cons_eq hkind.symm
    rw [if_pos hkind]
    exact ⟨rfl, ⟨houter, h.passes⟩, hskipped⟩
  · rw [if_neg hkind]
    exact ⟨rfl, h.passes, entry, hentry.of_cons_ne (Ne.symm hkind), hskipped⟩

/-- A part that waits for its terminator is read as it should be or stands for the tokens that were
skipped up to the terminator. -/
theorem recovering_parses {terminator : Kind} (hblank : terminator ≠ .blank) {body : Parse α}
    {R : Reading α} (ofFault : Fault → α) (hbody : Parses stream body R) :
    Parses stream (recovering stream terminator ofFault body)
      (.recovered terminator ofFault R) := by
  intro s hs
  have houtcome := hbody _ (hs.await hblank)
  cases hcase : body { s with awaited := ⟨terminator, s.pos⟩ :: s.awaited } with
  | ok result s' =>
      rw [hcase] at houtcome
      obtain ⟨hfollows, hread⟩ := houtcome
      simp only [recovering, hcase]
      exact ⟨⟨by simp [hfollows.awaited_eq], hfollows.passes⟩, .inl hread⟩
  | error fault s' =>
      rw [hcase] at houtcome
      have hne := houtcome.kind_ne_blank (hs.await hblank)
      obtain ⟨htaken, hraised⟩ := recovering_of_error hblank ofFault hs hcase houtcome
      by_cases hkind : stream.kindAt s'.pos = terminator
      · obtain ⟨hresult, hfollows, hskipped⟩ := htaken hkind
        rw [hresult]
        refine ⟨hfollows, .inr ⟨fault, rfl, ?_, ?_⟩⟩
        · rw [hskipped]
          rfl
        · rw [TokenStream.next_of_ne hne]
          exact hkind
      · obtain ⟨hresult, hunwound⟩ := hraised hkind
        rw [hresult]
        exact hunwound

/-- Items are read until the terminator, if one that reads nothing ends at the terminator. -/
theorem items_until_accords {terminator : Kind} (hblank : terminator ≠ .blank) {item : Parse α}
    {R : Reading α} (ofFault : Fault → α) (hitem : Parses stream item R)
    (hprogress : ∀ first result next, first.kind ≠ terminator → R first result [] next →
      next.kind = terminator) (results : List α) (s : State) (hs : s.Ready) :
    Accords stream (fun first all w next => ∃ more, all = results.reverse ++ more ∧
        Reading.Items terminator (.recovered terminator ofFault R) first more w next) s
      (itemsUntil stream terminator ofFault item results s) := by
  have hstep (s : State) (hs : s.Ready) :=
    (recovering_parses hblank ofFault hitem _
      ((Follows.significant stream s).ready hs)).of_significant
  -- the items found so far are kept in reverse, so the reading is of what comes after them
  fun_induction itemsUntil stream terminator ofFault item results s with
  | case1 results s pos hkind =>
      refine ⟨⟨rfl, stream.passes_significant s.pos⟩, [], (List.append_nil _).symm, ?_⟩
      change Reading.Items _ _ _ _ (stream.window s.pos (stream.significant s.pos))
        (stream.next (stream.significant s.pos))
      rw [stream.window_significant, stream.next_significant]
      exact .done hkind
  | case2 results s pos hkind fault s' hcase =>
      have houtcome := hstep s hs
      rw [hcase] at houtcome
      exact houtcome
  | case3 results s pos hkind found s' hcase _ ih =>
      have houtcome := hstep s hs
      rw [hcase] at houtcome
      refine .of_follows houtcome.1 (fun all w next hmore => ?_) (ih (houtcome.1.ready hs))
      obtain ⟨more, rfl, hmore⟩ := hmore
      exact ⟨found :: more, by simp, .item hkind houtcome.2 hmore⟩
  | case4 results s pos hkind found s' hcase hle =>
      have houtcome := hstep s hs
      rw [hcase] at houtcome
      obtain ⟨hfollows, hread⟩ := houtcome
      refine ⟨hfollows, [found], by simp, ?_⟩
      -- the item has passed no token, so it was read from none
      rw [TokenStream.window_of_remaining_le hfollows.passes.le (Nat.le_of_not_lt hle)] at hread ⊢
      have hnext : (stream.next s'.pos).kind = terminator := by
        rcases hread with hread | ⟨_, _, _, hnext⟩
        · exact hprogress _ _ _ hkind hread
        · exact hnext
      exact .item hkind hread (.done hnext)

/-- The items up to a terminator are read one after another. -/
theorem items_until_parses {terminator : Kind} (hblank : terminator ≠ .blank) {item : Parse α}
    {R : Reading α} (ofFault : Fault → α) (hitem : Parses stream item R)
    (hprogress : ∀ first result next, first.kind ≠ terminator → R first result [] next →
      next.kind = terminator) :
    Parses stream (itemsUntil stream terminator ofFault item [])
      (Reading.Items terminator (.recovered terminator ofFault R)) :=
  Parses.mono (fun s hs => items_until_accords hblank ofFault hitem hprogress [] s hs)
    fun _ _ _ _ ⟨_, hall, hitems⟩ => hall ▸ hitems

end LetScript.Parser
