import LetScript.Proofs.Parser.Acceptance
import LetScript.Proofs.Parser.Forms
import LetScript.Proofs.Relocation.Tree
import Mathlib.Data.List.Forall2

/-!
# Parsing without blank tokens

A parser takes the same steps over two streams with the same significant tokens. The positions of
the two runs differ, and so do the points at which blank tokens are skipped: two positions
correspond if the same significant tokens are ahead of them (`Mirror.At`). Corresponding states have
corresponding positions, also where constructs began to wait. `Mirror.Commutes` says of two parsers
that from corresponding states the second one gives what the first one gives, relocated, and that
the states after them correspond. It holds of the basic steps and is closed under the ways to put
parsers together, hence it holds of whole programs (`Mirror.program_commutes`).
-/

namespace LetScript.Parser

/-- Two streams with the same significant tokens up to an end of input. In the second one they are
at other places, and there are no blank tokens. -/
structure Mirror (f : Position → Position) where
  first : TokenStream
  second : TokenStream
  stop : Nat
  stop' : Nat
  get_stop : second.get stop' = (first.get stop).relocate f
  no_blank : ∀ pos, second.kindAt pos ≠ .blank

namespace Mirror

open Reading

variable {f : Position → Position} (m : Mirror f)

/-- The same significant tokens are ahead of two positions. -/
def At (pos pos' : Nat) : Prop :=
  ∃ w, Ahead m.first m.stop pos w ∧ Ahead m.second m.stop' pos' (w.map (Token.relocate f))

variable {m}

namespace At

variable {pos pos' start start' : Nat}

/-- The same token comes next at corresponding positions. -/
theorem next (h : m.At pos pos') : m.second.next pos' = (m.first.next pos).relocate f := by
  obtain ⟨w, hfirst, hsecond⟩ := h
  cases w with
  | nil =>
      unfold TokenStream.next
      rw [hfirst.significant_eq, hsecond.significant_eq]
      exact m.get_stop
  | cons token w => rw [hfirst.of_cons.1, hsecond.of_cons.1]

/-- A token of the same kind comes next at corresponding positions. -/
theorem next_kind (h : m.At pos pos') : (m.second.next pos').kind = (m.first.next pos).kind := by
  rw [h.next, Token.kind_relocate]

/-- Corresponding positions hold tokens of the same kind, if the first one is not blank. -/
theorem kind_eq (h : m.At pos pos') (hblank : m.first.kindAt pos ≠ .blank) :
    m.second.kindAt pos' = m.first.kindAt pos := by
  have hnext := h.next_kind
  rwa [TokenStream.next_of_ne hblank, TokenStream.next_of_ne (m.no_blank pos')] at hnext

/-- Blank tokens may be skipped in the first stream only. -/
theorem significant_first (h : m.At pos pos') : m.At (m.first.significant pos) pos' := by
  obtain ⟨w, hfirst, hsecond⟩ := h
  exact ⟨w, hfirst.significant, hsecond⟩

/-- Blank tokens may be skipped in the second stream only. -/
theorem significant_second (h : m.At pos pos') : m.At pos (m.second.significant pos') := by
  obtain ⟨w, hfirst, hsecond⟩ := h
  exact ⟨w, hfirst, hsecond.significant⟩

/-- Skipping blank tokens in both streams leads to corresponding positions. -/
theorem significant (h : m.At pos pos') :
    m.At (m.first.significant pos) (m.second.significant pos') :=
  h.significant_first.significant_second

/-- Passing the next token leads to corresponding positions. -/
theorem succ (h : m.At pos pos') (hend : (m.first.next pos).kind ≠ .endOfInput) :
    m.At (m.first.significant pos + 1) (m.second.significant pos' + 1) := by
  obtain ⟨w, hfirst, hsecond⟩ := h
  rcases hfirst.nil_or_cons with ⟨hnext, -⟩ | ⟨-, rest, rfl, hrest⟩
  · exact absurd hnext hend
  · exact ⟨rest, hrest, hsecond.of_cons.2.2⟩

/-- Skipping to one of some kinds leads to corresponding positions. -/
theorem skip_to {kinds : List Kind} (h : m.At pos pos') (hend : .endOfInput ∈ kinds)
    (hblank : .blank ∉ kinds) :
    m.At (m.first.skipTo kinds pos) (m.second.skipTo kinds pos') := by
  obtain ⟨w, hfirst, hsecond⟩ := h
  refine ⟨_, hfirst.skip_to hend hblank, ?_⟩
  have hdrop := hsecond.skip_to hend hblank
  rwa [List.dropWhile_map] at hdrop

/-- The same significant tokens stand between corresponding positions. -/
theorem window_eq (hstart : m.At start start') (h : m.At pos pos') (hle : start ≤ pos)
    (hle' : start' ≤ pos') :
    m.second.window start' pos' = (m.first.window start pos).map (Token.relocate f) := by
  obtain ⟨w, hfirst, hsecond⟩ := h
  obtain ⟨v, hfrom, hfrom'⟩ := hstart
  have hwindow : m.first.window start pos ++ w = v := by
    rw [← hfirst.window_eq, ← hfrom.window_eq]
    exact TokenStream.window_append hle hfirst.passes.le
  have hwindow' : m.second.window start' pos' ++ w.map (Token.relocate f) =
      v.map (Token.relocate f) := by
    rw [← hsecond.window_eq, ← hfrom'.window_eq]
    exact TokenStream.window_append hle' hsecond.passes.le
  rw [← hwindow, List.map_append] at hwindow'
  exact List.append_cancel_right hwindow'

/-- The tokens between corresponding positions are the same, without blank tokens. -/
theorem slice_eq (hstart : m.At start start') (h : m.At pos pos') (hle : start ≤ pos)
    (hle' : start' ≤ pos') :
    m.second.slice start' pos' = Token.relocateAll f (m.first.slice start pos) := by
  have hslice : m.second.window start' pos' = m.second.slice start' pos' := by
    refine List.filter_eq_self.2 fun token htoken => decide_eq_true ?_
    obtain ⟨i, hi, rfl⟩ := List.getElem_of_mem htoken
    simp only [TokenStream.slice, Array.length_toList, Array.size_extract] at hi
    have hblank := m.no_blank (start' + i)
    have hlt : start' + i < m.second.body.size := by omega
    simpa [TokenStream.kindAt, TokenStream.get, TokenStream.slice, hlt] using hblank
  rw [← hslice]
  exact hstart.window_eq h hle hle'

end At

/-! ## Corresponding states -/

/-- Two constructs wait for the same kind since corresponding positions. -/
def AwaitedAt (m : Mirror f) (entry entry' : Awaited) : Prop :=
  entry.kind = entry'.kind ∧ m.At entry.start entry'.start

/-- Two states correspond. -/
structure Mirrored (m : Mirror f) (s s' : State) : Prop where
  pos : m.At s.pos s'.pos
  awaited : List.Forall₂ m.AwaitedAt s.awaited s'.awaited
  nextId : s'.nextId = s.nextId

/-- Corresponding constructs wait for the same kinds. -/
theorem awaited_kinds {awaited awaited' : List Awaited}
    (h : List.Forall₂ m.AwaitedAt awaited awaited') :
    awaited'.map Awaited.kind = awaited.map Awaited.kind := by
  induction h with
  | nil => rfl
  | cons hentry _ ih => rw [List.map_cons, List.map_cons, ih, hentry.1]

/-- Corresponding constructs are given up together. -/
theorem unwind_mirrored {awaited awaited' : List Awaited}
    (h : List.Forall₂ m.AwaitedAt awaited awaited') (kind : Kind) {here here' : Nat}
    (hhere : m.At here here') :
    m.At (unwind kind here awaited).1 (unwind kind here' awaited').1 ∧
      List.Forall₂ m.AwaitedAt (unwind kind here awaited).2 (unwind kind here' awaited').2 := by
  induction h with
  | nil => exact ⟨hhere, .nil⟩
  | @cons entry entry' awaited awaited' hentry hrest ih =>
      by_cases hkind : entry.kind = kind
      · have hkind' : entry'.kind = kind := hentry.1 ▸ hkind
        simp only [unwind, if_pos hkind, if_pos hkind']
        exact ⟨hentry.2, hrest⟩
      · have hkind' : entry'.kind ≠ kind := hentry.1 ▸ hkind
        simp only [unwind, if_neg hkind, if_neg hkind']
        exact ih

/-- Two outcomes correspond: both are results, the second one the image of the first one under `g`,
or both are faults, and the states after them correspond. -/
def Related {α β : Type} (m : Mirror f) (g : α → β) :
    EStateM.Result Fault State α → EStateM.Result Fault State β → Prop
  | .ok result s, .ok result' s' => result' = g result ∧ m.Mirrored s s'
  | .error fault s, .error fault' s' => fault' = fault.relocate f ∧ m.Mirrored s s'
  | _, _ => False

namespace Related

variable {α β : Type} {g : α → β} {outcome' : EStateM.Result Fault State β} {s : State}

/-- A result corresponds to a result. -/
theorem of_ok {result : α} (h : m.Related g (.ok result s) outcome') :
    ∃ result' s', outcome' = .ok result' s' ∧ result' = g result ∧ m.Mirrored s s' := by
  cases outcome' with
  | ok result' s' => exact ⟨result', s', rfl, h⟩
  | error fault' s' => exact h.elim

/-- A fault corresponds to a fault. -/
theorem of_error {fault : Fault} (h : m.Related g (.error fault s) outcome') :
    ∃ fault' s', outcome' = .error fault' s' ∧ fault' = fault.relocate f ∧ m.Mirrored s s' := by
  cases outcome' with
  | ok result' s' => exact h.elim
  | error fault' s' => exact ⟨fault', s', rfl, h⟩

end Related

/-- The reading that says nothing. -/
abbrev unread {α : Type} : Reading α := fun _ _ _ _ => True

/-- Two parsers have corresponding outcomes from corresponding states, and meet the contract of a
parser there. -/
structure Commutes {α β : Type} (m : Mirror f) (p : Parse α) (p' : Parse β) (g : α → β) :
    Prop where
  parses : Parses m.first p unread
  step : ∀ s s' : State, s.Ready → s'.Ready → m.Mirrored s s' →
    Accords m.second unread s' (p' s') ∧ m.Related g (p s) (p' s')

namespace Commutes

variable {α β α' β' : Type} {g : α → α'} {h : β → β'}

/-- Corresponding parsers one after the other correspond. It is enough that the second ones do for
the values that the first one gives. -/
theorem bind_where {p : Parse α} {p' : Parse α'} {k : α → Parse β} {k' : α' → Parse β'}
    {P : α → Prop} (hp : m.Commutes p p' g) (hP : ∀ s value t, p s = .ok value t → P value)
    (hparses : ∀ value, Parses m.first (k value) unread)
    (hk : ∀ value, P value → m.Commutes (k value) (k' (g value)) h) :
    m.Commutes (p >>= k) (p' >>= k') h := by
  refine ⟨(hp.parses.bind hparses).mono fun _ _ _ _ _ => trivial, ?_⟩
  intro s s' hs hs' hmirrored
  have hfirst := hp.parses s hs
  obtain ⟨hsecond, hrelated⟩ := hp.step s s' hs hs' hmirrored
  change Accords m.second unread s' (EStateM.bind p' k' s') ∧
    m.Related h (EStateM.bind p k s) (EStateM.bind p' k' s')
  unfold EStateM.bind
  cases hcase : p s with
  | ok value t =>
      have hvalue := hP s value t hcase
      rw [hcase] at hfirst hrelated
      obtain ⟨value', t', hcase', rfl, ht⟩ := hrelated.of_ok
      rw [hcase'] at hsecond ⊢
      obtain ⟨hnext, hrest⟩ :=
        (hk value hvalue).step t t' (hfirst.1.ready hs) (hsecond.1.ready hs') ht
      exact ⟨.of_follows hsecond.1 (fun _ _ _ _ => trivial) hnext, hrest⟩
  | error fault t =>
      rw [hcase] at hrelated
      obtain ⟨fault', t', hcase', hfault, ht⟩ := hrelated.of_error
      rw [hcase'] at hsecond ⊢
      exact ⟨hsecond, hfault, ht⟩

/-- Corresponding parsers one after the other correspond. -/
theorem bind {p : Parse α} {p' : Parse α'} {k : α → Parse β} {k' : α' → Parse β'}
    (hp : m.Commutes p p' g) (hk : ∀ value, m.Commutes (k value) (k' (g value)) h) :
    m.Commutes (p >>= k) (p' >>= k') h :=
  hp.bind_where (fun _ _ _ _ => trivial) (fun value => (hk value).parses) fun value _ => hk value

/-- A value without a step corresponds to its image. -/
theorem pure (g : α → α') (value : α) :
    m.Commutes (Pure.pure value) (Pure.pure (g value)) g :=
  ⟨(Parses.pure value).mono fun _ _ _ _ _ => trivial, fun _ _ _ _ hmirrored =>
    ⟨⟨.refl .., trivial⟩, rfl, hmirrored⟩⟩

/-- Nodes with a new identity correspond, if they do for every identity. -/
theorem node {node : NodeId → α} {node' : NodeId → α'} (h : ∀ id, node' id = g (node id)) :
    m.Commutes (freshId >>= fun id => Pure.pure (node id))
      (freshId >>= fun id => Pure.pure (node' id)) g := by
  refine ⟨(node_parses node).mono fun _ _ _ _ _ => trivial, fun s s' _ _ hmirrored => ?_⟩
  refine ⟨⟨⟨rfl, .refl ..⟩, trivial⟩, ?_, hmirrored.pos, hmirrored.awaited, ?_⟩
  · rw [hmirrored.nextId, h]
  · change s'.nextId + 1 = s.nextId + 1
    rw [hmirrored.nextId]

/-- Expressions are entered and left together. -/
theorem nested {p : Parse α} {p' : Parse α'} (hp : m.Commutes p p' g) :
    m.Commutes (nested p) (nested p') g := by
  refine ⟨hp.parses.nested, fun s s' hs hs' hmirrored => ?_⟩
  obtain ⟨hsecond, hrelated⟩ := hp.step { s with nesting := s.nesting + 1 }
    { s' with nesting := s'.nesting + 1 } ((Follows.nesting m.first s _).ready hs)
    ((Follows.nesting m.second s' _).ready hs')
    ⟨hmirrored.pos, hmirrored.awaited, hmirrored.nextId⟩
  refine ⟨.nested hsecond, ?_⟩
  unfold Parser.nested
  cases hcase : p { s with nesting := s.nesting + 1 } with
  | ok result t =>
      rw [hcase] at hrelated
      obtain ⟨result', t', hcase', hresult, ht⟩ := hrelated.of_ok
      rw [hcase']
      exact ⟨hresult, ht.pos, ht.awaited, ht.nextId⟩
  | error fault t =>
      rw [hcase] at hrelated
      obtain ⟨fault', t', hcase', hfault, ht⟩ := hrelated.of_error
      rw [hcase']
      exact ⟨hfault, ht.pos, ht.awaited, ht.nextId⟩

end Commutes

/-! ## The basic steps -/

/-- Skipping blank tokens leads to corresponding states. -/
theorem Mirrored.significant {s s' : State} (h : m.Mirrored s s') :
    m.Mirrored { s with pos := m.first.significant s.pos }
      { s' with pos := m.second.significant s'.pos } :=
  ⟨h.pos.significant, h.awaited, h.nextId⟩

/-- The current tokens correspond. -/
theorem current_commutes :
    m.Commutes (current m.first) (current m.second) (Token.relocate f) :=
  ⟨current_parses.mono fun _ _ _ _ _ => trivial, fun _ _ _ hs' hmirrored =>
    ⟨(current_parses.mono fun _ _ _ _ _ => trivial) _ hs', hmirrored.pos.next,
      hmirrored.significant⟩⟩

/-- The current kinds are the same. -/
theorem current_kind_commutes :
    m.Commutes (currentKind m.first) (currentKind m.second) id :=
  ⟨current_kind_parses.mono fun _ _ _ _ _ => trivial, fun _ _ _ hs' hmirrored =>
    ⟨(current_kind_parses.mono fun _ _ _ _ _ => trivial) _ hs', hmirrored.pos.next_kind,
      hmirrored.significant⟩⟩

/-- The current tokens are passed together. -/
theorem advance_commutes :
    m.Commutes (advance m.first) (advance m.second) (Token.relocate f) := by
  refine ⟨advance_parses.mono fun _ _ _ _ _ => trivial, fun s s' _ hs' hmirrored =>
    ⟨(advance_parses.mono fun _ _ _ _ _ => trivial) _ hs', hmirrored.pos.next, ?_⟩⟩
  refine ⟨?_, hmirrored.awaited, hmirrored.nextId⟩
  change m.At (if (m.first.next s.pos).kind = .endOfInput then _ else _)
    (if (m.second.next s'.pos).kind = .endOfInput then _ else _)
  rw [hmirrored.pos.next_kind]
  by_cases hend : (m.first.next s.pos).kind = .endOfInput
  · rw [if_pos hend, if_pos hend]
    exact hmirrored.pos.significant
  · rw [if_neg hend, if_neg hend]
    exact hmirrored.pos.succ hend

/-- No construct that was given up began to wait after the token that it waited for. -/
theorem unwind_le {awaited : List Awaited} {here : Nat} (kind : Kind)
    (h : ∀ entry ∈ awaited, entry.start ≤ here) : (unwind kind here awaited).1 ≤ here := by
  induction awaited with
  | nil => exact Nat.le_refl here
  | cons entry awaited ih =>
      by_cases hkind : entry.kind = kind
      · simp only [unwind, if_pos hkind]
        exact h entry (List.mem_cons_self ..)
      · simp only [unwind, if_neg hkind]
        exact ih fun other hother => h other (List.mem_cons_of_mem _ hother)

/-- Faults are raised together. -/
theorem raise_commutes {α β : Type} (g : α → β) (cause : Cause) (token : Token) :
    m.Commutes (raise m.first cause token) (raise m.second cause (token.relocate f)) g := by
  refine ⟨raise_parses cause token _, fun s s' hs hs' hmirrored =>
    ⟨raise_parses cause _ _ s' hs', ?_⟩⟩
  have hkinds := awaited_kinds hmirrored.awaited
  let pos := m.first.skipTo (s.awaited.map Awaited.kind) s.pos
  let pos' := m.second.skipTo (s'.awaited.map Awaited.kind) s'.pos
  have hpos : m.At pos pos' := by
    change m.At _ (m.second.skipTo (s'.awaited.map Awaited.kind) s'.pos)
    rw [hkinds]
    exact hmirrored.pos.skip_to hs.awaits_end hs.no_blank
  have hkind : m.second.kindAt pos' = m.first.kindAt pos := by
    refine hpos.kind_eq fun heq => ?_
    exact hs.no_blank (heq ▸ m.first.kind_at_skip_to_mem s.pos hs.awaits_end)
  obtain ⟨hstart, hawaited⟩ := unwind_mirrored hmirrored.awaited (m.first.kindAt pos) hpos
  have hle := unwind_le (m.first.kindAt pos) fun entry hentry =>
    Nat.le_trans (hs.started entry hentry) (m.first.le_skip_to (s.awaited.map Awaited.kind) s.pos)
  have hle' := unwind_le (m.first.kindAt pos) fun entry hentry =>
    Nat.le_trans (hs'.started entry hentry)
      (m.second.le_skip_to (s'.awaited.map Awaited.kind) s'.pos)
  refine ⟨?_, hpos, ?_, ?_⟩
  · change Fault.mk s'.nextId ⟨cause, f token.span.start⟩ (token.relocate f)
        (m.second.slice (min (unwind (m.second.kindAt pos') pos' s'.awaited).1 pos') pos') =
      Fault.mk s.nextId ⟨cause, f token.span.start⟩ (token.relocate f) (Token.relocateAll f
        (m.first.slice (min (unwind (m.first.kindAt pos) pos s.awaited).1 pos) pos))
    rw [hkind, Nat.min_eq_left hle, Nat.min_eq_left hle', hmirrored.nextId,
      hstart.slice_eq hpos hle hle']
  · change List.Forall₂ m.AwaitedAt _ (unwind (m.second.kindAt pos') pos' s'.awaited).2
    rw [hkind]
    exact hawaited
  · change s'.nextId + 1 = s.nextId + 1
    rw [hmirrored.nextId]

/-- Faults are raised together at the current tokens. -/
theorem raise_here_commutes {α β : Type} (g : α → β) (cause : Cause) :
    m.Commutes (raiseHere m.first cause) (raiseHere m.second cause) g :=
  current_commutes.bind fun token => raise_commutes g cause token

/-- Tokens of a kind are passed together. -/
theorem expect_commutes (kind : Kind) :
    m.Commutes (expect m.first kind) (expect m.second kind) (Token.relocate f) := by
  refine current_commutes.bind fun token => ?_
  rw [Token.kind_relocate]
  by_cases hkind : token.kind = kind
  · rw [if_pos hkind, if_pos hkind]
    exact advance_commutes
  · rw [if_neg hkind, if_neg hkind]
    exact raise_commutes _ _ token

/-! ## Recovery -/

section Recovery

variable {α β : Type} {g : α → β} (ofFault : Fault → α) (ofFault' : Fault → β)

/-- Waiting for a kind of token leads to corresponding states. -/
theorem Mirrored.await {s s' : State} (h : m.Mirrored s s') (kind : Kind) :
    m.Mirrored { s with awaited := ⟨kind, s.pos⟩ :: s.awaited }
      { s' with awaited := ⟨kind, s'.pos⟩ :: s'.awaited } :=
  ⟨h.pos, .cons ⟨rfl, h.pos⟩ h.awaited, h.nextId⟩

/-- Faults are taken together by corresponding parts that wait for the same terminator. -/
theorem recovering_commutes {terminator : Kind} (hblank : terminator ≠ .blank) {body : Parse α}
    {body' : Parse β} (hfault : ∀ fault, ofFault' (fault.relocate f) = g (ofFault fault))
    (h : m.Commutes body body' g) :
    m.Commutes (recovering m.first terminator ofFault body)
      (recovering m.second terminator ofFault' body') g := by
  refine ⟨(recovering_parses hblank ofFault h.parses).mono fun _ _ _ _ _ => trivial, ?_⟩
  intro s s' hs hs' hmirrored
  have hfirst := h.parses _ (hs.await hblank)
  obtain ⟨hsecond, hrelated⟩ :=
    h.step _ _ (hs.await hblank) (hs'.await hblank) (hmirrored.await terminator)
  cases hcase : body { s with awaited := ⟨terminator, s.pos⟩ :: s.awaited } with
  | ok result t =>
      rw [hcase] at hfirst hrelated
      obtain ⟨result', t', hcase', rfl, ht⟩ := hrelated.of_ok
      rw [hcase'] at hsecond
      simp only [recovering, hcase, hcase']
      refine ⟨⟨⟨by simp [hsecond.1.awaited_eq], hsecond.1.passes⟩, trivial⟩, rfl, ht.pos, ?_,
        ht.nextId⟩
      rw [hfirst.1.awaited_eq, hsecond.1.awaited_eq]
      exact hmirrored.awaited
  | error fault t =>
      rw [hcase] at hfirst hrelated
      obtain ⟨fault', t', hcase', rfl, ht⟩ := hrelated.of_error
      rw [hcase'] at hsecond
      obtain ⟨htaken, hraised⟩ := recovering_of_error hblank ofFault hs hcase hfirst
      obtain ⟨htaken', hraised'⟩ := recovering_of_error hblank ofFault' hs' hcase' hsecond
      -- both runs are at a token of the same kind, so both take the fault or none does
      have hkind := ht.pos.kind_eq (hfirst.kind_ne_blank (hs.await hblank))
      by_cases hterminator : m.first.kindAt t.pos = terminator
      · obtain ⟨hrun', hfollows', -⟩ := htaken' (hkind.trans hterminator)
        rw [(htaken hterminator).1, hrun']
        exact ⟨⟨hfollows', trivial⟩, hfault fault, ht⟩
      · obtain ⟨hrun', hunwound'⟩ := hraised' (hkind ▸ hterminator)
        rw [(hraised hterminator).1, hrun']
        exact ⟨hunwound', rfl, ht⟩

/-- Corresponding items are parsed together. In a run that skips blank tokens the loop may look
once more for an item after one that has passed no token, but then the terminator comes next. -/
theorem items_until_step {terminator : Kind} (hblank : terminator ≠ .blank) {item : Parse α}
    {item' : Parse β} {R : Reading α}
    (hfault : ∀ fault, ofFault' (fault.relocate f) = g (ofFault fault))
    (hitem : Parses m.first item R)
    (hprogress : ∀ first result next, first.kind ≠ terminator → R first result [] next →
      next.kind = terminator)
    (h : m.Commutes item item' g) (items : List α) (s s' : State) (hs : s.Ready) (hs' : s'.Ready)
    (hmirrored : m.Mirrored s s') :
    Accords m.second unread s'
        (itemsUntil m.second terminator ofFault' item' (items.map g) s') ∧
      m.Related (List.map g) (itemsUntil m.first terminator ofFault item items s)
        (itemsUntil m.second terminator ofFault' item' (items.map g) s') := by
  have hstep (s s' : State) (hs : s.Ready) (hs' : s'.Ready) (hmirrored : m.Mirrored s s') :=
    (recovering_commutes ofFault ofFault' hblank hfault h).step _ _
      ((Follows.significant m.first s).ready hs) ((Follows.significant m.second s').ready hs')
      hmirrored.significant
  have hread (s : State) (hs : s.Ready) :=
    (recovering_parses hblank ofFault hitem _
      ((Follows.significant m.first s).ready hs)).of_significant
  -- an item that has passed no token in one of the runs has ended at the terminator
  have hstopped {s s' t t' : State} {found : α} (hmirrored : m.Mirrored s s')
      (hne : (m.first.next s.pos).kind ≠ terminator) (ht : m.Mirrored t t')
      (hfirst : Accords m.first (.recovered terminator ofFault R) s (.ok found t))
      (hfollows : Follows m.second s' t')
      (hnone : m.first.window s.pos t.pos = [] ∨ m.second.window s'.pos t'.pos = []) :
      (m.first.next t.pos).kind = terminator := by
    obtain ⟨hfollows₁, hread⟩ := hfirst
    have hwindow : m.first.window s.pos t.pos = [] := by
      rcases hnone with hnone | hnone
      · exact hnone
      · rw [hmirrored.pos.window_eq ht.pos hfollows₁.passes.le hfollows.passes.le] at hnone
        exact List.map_eq_nil_iff.1 hnone
    rw [hwindow] at hread
    rcases hread with hread | ⟨_, _, _, hnext⟩
    · exact hprogress _ _ _ hne hread
    · exact hnext
  have hreverse (items : List α) : (items.map g).reverse = items.reverse.map g :=
    List.map_reverse.symm
  fun_induction itemsUntil m.first terminator ofFault item items s generalizing s' with
  | case1 items s pos hkind =>
      rw [items_until_end ofFault' item' _ (hmirrored.pos.next_kind.trans hkind)]
      exact ⟨⟨.significant m.second s', trivial⟩, hreverse items, hmirrored.significant⟩
  | case2 items s pos hkind fault t hcase =>
      obtain ⟨hsecond, hrelated⟩ := hstep s s' hs hs' hmirrored
      rw [items_until_of_ne ofFault' item' _ (hmirrored.pos.next_kind ▸ hkind)]
      rw [hcase] at hrelated
      obtain ⟨fault', t', hcase', rfl, ht⟩ := hrelated.of_error
      rw [hcase'] at hsecond ⊢
      exact ⟨hsecond.of_significant, rfl, ht⟩
  | case3 items s pos hkind found t hcase hlt ih =>
      obtain ⟨hsecond, hrelated⟩ := hstep s s' hs hs' hmirrored
      have hfirst := hread s hs
      rw [items_until_of_ne ofFault' item' _ (hmirrored.pos.next_kind ▸ hkind)]
      rw [hcase] at hrelated hfirst
      obtain ⟨found', t', hcase', rfl, ht⟩ := hrelated.of_ok
      rw [hcase'] at hsecond ⊢
      have hfollows := hsecond.of_significant.1
      by_cases hlt' : m.second.remaining t'.pos < m.second.remaining s'.pos
      · simp only [if_pos hlt']
        obtain ⟨hmore, hrest⟩ := ih t' (hfirst.1.ready hs) (hfollows.ready hs') ht
        exact ⟨.of_follows hfollows (fun _ _ _ _ => trivial) hmore, hrest⟩
      · simp only [if_neg hlt']
        have hend := hstopped hmirrored hkind ht hfirst hfollows <| .inr <|
          TokenStream.window_of_remaining_le hfollows.passes.le (Nat.le_of_not_lt hlt')
        rw [items_until_end ofFault item _ hend]
        exact ⟨⟨hfollows, trivial⟩, hreverse (found :: items), ht.pos.significant_first,
          ht.awaited, ht.nextId⟩
  | case4 items s pos hkind found t hcase hle =>
      obtain ⟨hsecond, hrelated⟩ := hstep s s' hs hs' hmirrored
      have hfirst := hread s hs
      rw [items_until_of_ne ofFault' item' _ (hmirrored.pos.next_kind ▸ hkind)]
      rw [hcase] at hrelated hfirst
      obtain ⟨found', t', hcase', rfl, ht⟩ := hrelated.of_ok
      rw [hcase'] at hsecond ⊢
      have hfollows := hsecond.of_significant.1
      have hend := hstopped hmirrored hkind ht hfirst hfollows <| .inl <|
        TokenStream.window_of_remaining_le hfirst.1.passes.le (Nat.le_of_not_lt hle)
      by_cases hlt' : m.second.remaining t'.pos < m.second.remaining s'.pos
      · simp only [if_pos hlt']
        rw [items_until_end ofFault' item' _ (ht.pos.next_kind.trans hend)]
        exact ⟨⟨hfollows.trans (.significant m.second t'), trivial⟩, hreverse (found :: items),
          ht.pos.significant_second, ht.awaited, ht.nextId⟩
      · simp only [if_neg hlt']
        exact ⟨⟨hfollows, trivial⟩, hreverse (found :: items), ht⟩

/-- Corresponding items up to a terminator are parsed together. -/
theorem items_until_commutes {terminator : Kind} (hblank : terminator ≠ .blank) {item : Parse α}
    {item' : Parse β} {R : Reading α}
    (hfault : ∀ fault, ofFault' (fault.relocate f) = g (ofFault fault))
    (hitem : Parses m.first item R)
    (hprogress : ∀ first result next, first.kind ≠ terminator → R first result [] next →
      next.kind = terminator) (h : m.Commutes item item' g) :
    m.Commutes (itemsUntil m.first terminator ofFault item [])
      (itemsUntil m.second terminator ofFault' item' []) (List.map g) :=
  ⟨(items_until_parses hblank ofFault hitem hprogress).mono fun _ _ _ _ _ => trivial,
    items_until_step ofFault ofFault' hblank hfault hitem hprogress h []⟩

end Recovery

/-! ## Layers of an expression -/

section Layers

variable {operand operand' : Power → Parse Tree}

/-- Definitions are parsed together. -/
theorem definition_commutes
    (h : ∀ power, m.Commutes (operand power) (operand' power) (Tree.relocate f)) (power : Power) :
    m.Commutes (definition m.first operand power) (definition m.second operand' power)
      (Item.relocate f) :=
  (expect_commutes .identifier).bind fun _ => (expect_commutes .equals).bind fun _ =>
    (h power).bind fun _ => .node fun _ => rfl

/-- Definitions that wait for their semicolon are parsed together. -/
theorem awaiting_definition_commutes
    (h : ∀ power, m.Commutes (operand power) (operand' power) (Tree.relocate f)) (power : Power) :
    m.Commutes (recovering m.first .semicolon .fault (definition m.first operand power))
      (recovering m.second .semicolon .fault (definition m.second operand' power))
      (Item.relocate f) :=
  recovering_commutes _ _ (by decide) (fun _ => rfl) (definition_commutes h power)

/-- Items of a let are parsed together. -/
theorem let_item_commutes
    (h : ∀ power, m.Commutes (operand power) (operand' power) (Tree.relocate f)) :
    m.Commutes (letItem m.first operand) (letItem m.second operand') (Item.relocate f) := by
  refine (awaiting_definition_commutes h .letIn).bind fun item =>
    current_kind_commutes.bind fun kind => ?_
  by_cases hkind : kind = .inWord
  · subst hkind
    exact .pure _ item
  · simp only [id, ne_eq, hkind, not_false_eq_true, if_true]
    exact (expect_commutes .semicolon).bind fun _ => .pure _ item

/-- Items of a record are parsed together. -/
theorem record_item_commutes
    (h : ∀ power, m.Commutes (operand power) (operand' power) (Tree.relocate f)) :
    m.Commutes (recordItem m.first operand) (recordItem m.second operand') (Item.relocate f) :=
  (awaiting_definition_commutes h .record).bind fun item =>
    (expect_commutes .semicolon).bind fun _ => .pure _ item

/-- Parameters are parsed together. -/
theorem param_commutes : m.Commutes (param m.first) (param m.second) (Param.relocate f) :=
  (expect_commutes .identifier).bind fun _ => .node fun _ => rfl

/-- The expressions of a rule are parsed together. -/
theorem parse_prefix_commutes
    (h : ∀ power, m.Commutes (operand power) (operand' power) (Tree.relocate f))
    (rule : PrefixRule) :
    m.Commutes (parsePrefix m.first operand rule) (parsePrefix m.second operand' rule)
      (Tree.relocate f) := by
  cases rule with
  | identifier | placeholder => exact advance_commutes.bind fun _ => .node fun _ => rfl
  | literal =>
      refine current_commutes.bind fun token => ?_
      rw [Token.value_relocate]
      cases Binary64.read? token.value with
      | none => exact raise_commutes _ _ token
      | some value => exact advance_commutes.bind fun _ => .node fun _ => rfl
  | invalid =>
      refine advance_commutes.bind_where (P := fun token => token.kind ≠ .blank) ?_
        (fun token => (node_parses fun id => Tree.fault ⟨id, token.diagnostic.getD
          ⟨.unrecognisedSymbol, token.span.start⟩, token, [token]⟩).mono fun _ _ _ _ _ => trivial)
        fun token hblank => .node fun id => ?_
      · rintro s token t ⟨⟩
        exact m.first.kind_at_significant_ne s.pos
      · have hskipped : Token.relocateAll f [token] = [token.relocate f] := by
          rw [Token.relocateAll, Token.significant_singleton hblank, List.map_singleton]
        have hdiagnostic : (token.relocate f).diagnostic.getD
            ⟨.unrecognisedSymbol, (token.relocate f).span.start⟩ =
              (token.diagnostic.getD ⟨.unrecognisedSymbol, token.span.start⟩).relocate f := by
          change (token.diagnostic.map (Diagnostic.relocate f)).getD _ = _
          cases token.diagnostic <;> rfl
        simp only [Tree.relocate, Fault.relocate, hskipped, hdiagnostic]
  | function =>
      have hparams := items_until_commutes Param.fault Param.fault
        (show Kind.arrow ≠ .blank by decide) (fun _ => rfl) param_parses
        (fun _ _ _ _ => ParamName.progress) (param_commutes (m := m))
      exact advance_commutes.bind fun _ => hparams.bind fun _ =>
        (expect_commutes .arrow).bind fun _ => (h .function).bind fun _ => .node fun _ => rfl
  | letIn =>
      have hitems := items_until_commutes Item.fault Item.fault
        (show Kind.inWord ≠ .blank by decide) (fun _ => rfl)
        (let_item_parses fun power => (h power).parses) (fun _ _ _ _ => LetItem.progress)
        (let_item_commutes h)
      refine advance_commutes.bind fun _ => hitems.bind fun items =>
        (expect_commutes .inWord).bind fun _ => (h .letIn).bind fun _ => .node fun _ => ?_
      rw [Tree.relocate, Item.relocate_list_eq]
  | record =>
      have hitems := items_until_commutes Item.fault Item.fault
        (show Kind.closeCurly ≠ .blank by decide) (fun _ => rfl)
        (record_item_parses fun power => (h power).parses) (fun _ _ _ _ => RecordItem.progress)
        (record_item_commutes h)
      refine advance_commutes.bind fun _ => hitems.bind fun items =>
        (expect_commutes .closeCurly).bind fun _ => .node fun _ => ?_
      rw [Tree.relocate, Item.relocate_list_eq]
  | group =>
      have hinner := recovering_commutes Tree.fault Tree.fault
        (show Kind.closeParen ≠ .blank by decide) (fun _ => rfl) (h .lowest)
      exact advance_commutes.bind fun _ => hinner.bind fun _ =>
        (expect_commutes .closeParen).bind fun _ => .node fun _ => rfl
  | sign => exact advance_commutes.bind fun _ => (h .additive).bind fun _ => .node fun _ => rfl

/-- What continues an expression is parsed together. -/
theorem parse_infix_commutes
    (h : ∀ power, m.Commutes (operand power) (operand' power) (Tree.relocate f)) (power : Power)
    (rule : InfixRule) :
    m.Commutes (parseInfix m.first operand power rule) (parseInfix m.second operand' power rule)
      (Continuation.relocate f) := by
  cases rule with
  | binary => exact advance_commutes.bind fun _ => (h power).bind fun _ => .node fun _ => rfl
  | apply => exact (h .apply).bind fun _ => .node fun _ => rfl

/-- Expressions are continued together. -/
theorem continue_from_commutes (grammar : Grammar)
    (h : ∀ power, m.Commutes (operand power) (operand' power) (Tree.relocate f)) (floor : Power)
    (left : Tree) (height : Nat) :
    m.Commutes (continueFrom m.first grammar operand floor left height)
      (continueFrom m.second grammar operand' floor (left.relocate f) height)
      (Tree.relocate f) := by
  induction left, height using continueFrom.induct with
  | case1 left height ih =>
      rw [continueFrom, continueFrom]
      refine current_kind_commutes.bind fun kind => ?_
      dsimp only [id]
      cases grammar.infixRule kind with
      | none => exact .pure _ left
      | some found =>
          obtain ⟨power, rule⟩ := found
          by_cases hlt : floor < power
          · simp only [if_pos hlt]
            refine (parse_infix_commutes h power rule).bind fun continuation => ?_
            simp only [Continuation.height_relocate]
            by_cases hle : max height continuation.height + 1 ≤ maxHeight
            · simp only [dif_pos hle]
              rw [Continuation.attach_relocate]
              exact ih continuation hle
            · simp only [dif_neg hle]
              exact raise_here_commutes _ _
          · simp only [if_neg hlt]
            exact .pure _ left

end Layers

/-- Expressions are parsed together. -/
theorem expression_commutes (m : Mirror f) (grammar : Grammar) (room : Nat) (floor : Power) :
    m.Commutes (expression m.first grammar room floor) (expression m.second grammar room floor)
      (Tree.relocate f) := by
  induction room generalizing floor with
  | zero => exact raise_here_commutes _ _
  | succ room ih =>
      rw [expression, expression]
      refine .nested (current_commutes.bind fun token => ?_)
      rw [Token.kind_relocate]
      cases grammar.prefixRule token.kind with
      | none => exact raise_commutes _ _ token
      | some rule =>
          refine (parse_prefix_commutes ih rule).bind fun left => ?_
          rw [Tree.height_relocate]
          exact continue_from_commutes grammar ih floor left left.height

/-- Programs are parsed together. -/
theorem program_commutes (m : Mirror f) (grammar : Grammar) :
    m.Commutes (program m.first grammar) (program m.second grammar) (Tree.relocate f) :=
  (m.expression_commutes grammar maxNesting .lowest).bind fun tree =>
    (expect_commutes .endOfInput).bind fun _ => .pure _ tree

end Mirror

end LetScript.Parser
