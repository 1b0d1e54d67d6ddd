import LetScript.Parser.State
import LetScript.Proofs.Token.Window

/-!
# What a parser accepts

`Accepts stream stop p before after Q` says that a parser `p` succeeds: from every state with the
significant tokens `before` ahead of it, up to the end of input at the position `stop`, it gives a
result with the property `Q` and leaves the tokens `after` ahead. Nothing is said about states with
other tokens ahead. The basic steps are shown to accept their tokens here, and `Accepts.bind` puts
them together.
-/

namespace LetScript

/-- The kind of the first token of a list, which the end of input follows. -/
def Token.upcoming : List Token → Kind
  | [] => .endOfInput
  | token :: _ => token.kind

namespace Parser

/-- The significant tokens between a position and the end of input at `stop`. -/
structure Ahead (stream : TokenStream) (stop pos : Nat) (tokens : List Token) : Prop where
  passes : stream.Passes pos stop
  window_eq : stream.window pos stop = tokens
  ends : stream.kindAt stop = .endOfInput

namespace Ahead

variable {stream : TokenStream} {stop pos : Nat} {token : Token} {tokens : List Token}

/-- The run of blank tokens at a position does not reach past the end of input. -/
theorem significant_le (h : Ahead stream stop pos tokens) : stream.significant pos ≤ stop :=
  (stream.passes_significant pos).le_of_end h.ends h.passes.le

/-- Skipping blank tokens leaves the same tokens ahead. -/
theorem significant (h : Ahead stream stop pos tokens) :
    Ahead stream stop (stream.significant pos) tokens where
  passes := h.passes.of_le (stream.le_significant pos) h.significant_le
  window_eq := by
    rw [TokenStream.window_of_significant h.significant_le]
    exact h.window_eq
  ends := h.ends

/-- Nothing is ahead of the end of input, and any other token is the first one ahead. -/
theorem nil_or_cons (h : Ahead stream stop pos tokens) :
    ((stream.next pos).kind = .endOfInput ∧ tokens = []) ∨
      ((stream.next pos).kind ≠ .endOfInput ∧ ∃ rest, tokens = stream.next pos :: rest ∧
        Ahead stream stop (stream.significant pos + 1) rest) := by
  rcases Nat.eq_or_lt_of_le h.significant_le with heq | hlt
  · refine .inl ⟨?_, ?_⟩
    · unfold TokenStream.next
      rw [heq]
      exact h.ends
    · rw [← h.window_eq, ← heq, stream.window_significant]
  · have hnext : (stream.next pos).kind ≠ .endOfInput :=
      h.passes.kind_ne _ (stream.le_significant pos) hlt
    have hle : pos ≤ stream.significant pos + 1 := Nat.le_succ_of_le (stream.le_significant pos)
    refine .inr ⟨hnext, stream.window (stream.significant pos + 1) stop, ?_,
      h.passes.of_le hle hlt, rfl, h.ends⟩
    rw [← h.window_eq, ← TokenStream.window_append hle hlt,
      TokenStream.window_significant_succ hnext, List.singleton_append]

/-- The next token has the kind of the first one ahead. -/
theorem next_kind (h : Ahead stream stop pos tokens) :
    (stream.next pos).kind = Token.upcoming tokens := by
  rcases h.nil_or_cons with ⟨hnext, rfl⟩ | ⟨-, rest, rfl, -⟩
  · exact hnext
  · rfl

/-- The first token ahead is the next one, and the others are ahead of the position after it. -/
theorem of_cons (h : Ahead stream stop pos (token :: tokens)) :
    stream.next pos = token ∧ token.kind ≠ .endOfInput ∧
      Ahead stream stop (stream.significant pos + 1) tokens := by
  rcases h.nil_or_cons with ⟨-, hnil⟩ | ⟨hnext, rest, hcons, hrest⟩
  · cases hnil
  · obtain ⟨rfl, rfl⟩ := List.cons.inj hcons
    exact ⟨rfl, hnext, hrest⟩

/-- Where nothing is ahead, only blank tokens are left before the end of input. -/
theorem significant_eq (h : Ahead stream stop pos []) : stream.significant pos = stop := by
  rcases Nat.eq_or_lt_of_le h.significant_le with heq | hlt
  · exact heq
  · have hne := h.passes.kind_ne _ (stream.le_significant pos) hlt
    rcases h.nil_or_cons with ⟨hnext, -⟩ | ⟨-, rest, hcons, -⟩
    · exact absurd hnext hne
    · cases hcons

/-- A token that is passed was the first one ahead, unless it is blank. -/
theorem succ (h : Ahead stream stop pos tokens) (hend : stream.kindAt pos ≠ .endOfInput) :
    ∃ rest, tokens = Token.significant [stream.get pos] ++ rest ∧
      Ahead stream stop (pos + 1) rest := by
  have hlt : pos < stop := Nat.lt_of_le_of_ne h.passes.le fun heq => hend (heq ▸ h.ends)
  refine ⟨stream.window (pos + 1) stop, ?_, h.passes.of_le (Nat.le_succ pos) hlt, rfl, h.ends⟩
  rw [← h.window_eq, ← TokenStream.window_append (Nat.le_succ pos) hlt]
  simp only [TokenStream.window, TokenStream.slice_succ (TokenStream.lt_size_of_kind_at_ne hend)]

/-- Skipping to one of some kinds leaves the tokens from the first of these kinds on ahead. -/
theorem skip_to {kinds : List Kind} (h : Ahead stream stop pos tokens) (hend : .endOfInput ∈ kinds)
    (hblank : .blank ∉ kinds) :
    Ahead stream stop (stream.skipTo kinds pos)
      (tokens.dropWhile fun token => decide (token.kind ∉ kinds)) := by
  fun_induction TokenStream.skipTo stream kinds pos generalizing tokens with
  | case1 pos hskip ih =>
      obtain ⟨rest, rfl, hrest⟩ := h.succ fun heq => hskip.2 (heq ▸ hend)
      rw [List.dropWhile_append_of_pos]
      · exact ih hrest
      · intro token htoken
        obtain rfl := List.mem_singleton.1 (List.mem_filter.1 htoken).1
        exact decide_eq_true hskip.2
  | case2 pos hstop =>
      have hmem : stream.kindAt pos ∈ kinds := by
        by_cases hlt : pos < stream.body.size
        · exact Decidable.not_not.1 fun hmem => hstop ⟨hlt, hmem⟩
        · rw [TokenStream.kind_at_of_size_le (Nat.le_of_not_lt hlt)]
          exact hend
      have hnext : stream.next pos = stream.get pos :=
        TokenStream.next_of_ne fun heq => hblank (heq ▸ hmem)
      rcases h.nil_or_cons with ⟨-, rfl⟩ | ⟨-, rest, rfl, -⟩
      · exact h
      · have hkeep : decide ((stream.next pos).kind ∉ kinds) = false := by
          rw [hnext]
          exact decide_eq_false (not_not_intro hmem)
        rw [List.dropWhile_cons_of_neg (by rw [hkeep]; exact Bool.false_ne_true)]
        exact h

/-- The stream got shorter if there are fewer tokens ahead. -/
theorem remaining_lt {pos' : Nat} {tokens' : List Token} (h : Ahead stream stop pos tokens)
    (h' : Ahead stream stop pos' tokens') (hlength : tokens'.length < tokens.length) :
    stream.remaining pos' < stream.remaining pos := by
  have hlt : pos < pos' := by
    refine Nat.lt_of_not_le fun hle => ?_
    -- going back would put more tokens ahead
    have hwindow : stream.window pos' pos ++ tokens = tokens' := by
      rw [← h.window_eq, ← h'.window_eq]
      exact TokenStream.window_append hle h.passes.le
    rw [← hwindow, List.length_append] at hlength
    omega
  have hsize := h.passes.le_size (Nat.lt_of_lt_of_le hlt h'.passes.le)
  have hle := h'.passes.le
  simp only [TokenStream.remaining]
  omega

end Ahead

/-! ## Parsers one after the other -/

section Sequence

variable {α β : Type} {p : Parse α} {f : α → Parse β} {value : α} {result : β} {fault : Fault}
  {s s' s'' : State}

/-- A parser after another one starts where this has ended. -/
theorem bind_of_ok (h : p s = .ok value s') : (p >>= f) s = f value s' := by
  change EStateM.bind p f s = _
  rw [EStateM.bind, h]

/-- A parser after one that raises a fault is not reached. -/
theorem bind_of_error (h : p s = .error fault s') : (p >>= f) s = .error fault s' := by
  change EStateM.bind p f s = _
  rw [EStateM.bind, h]

/-- If two parsers one after the other give a result, then so does each of them. -/
theorem exists_of_bind_ok (h : (p >>= f) s = .ok result s'') :
    ∃ value s', p s = .ok value s' ∧ f value s' = .ok result s'' := by
  cases hcase : p s with
  | ok value s' => exact ⟨value, s', rfl, (bind_of_ok hcase).symm.trans h⟩
  | error fault s' =>
      rw [bind_of_error hcase] at h
      cases h

end Sequence

/-! ## Acceptance -/

/-- From every state with the tokens `before` ahead, a parser gives a result with the property `Q`
and leaves the tokens `after` ahead. -/
def Accepts {α : Type} (stream : TokenStream) (stop : Nat) (p : Parse α)
    (before after : List Token) (Q : α → Prop) : Prop :=
  ∀ s : State, Ahead stream stop s.pos before →
    ∃ result s', p s = .ok result s' ∧ Ahead stream stop s'.pos after ∧ Q result

variable {α β : Type} {stream : TokenStream} {stop : Nat} {token : Token}
  {before middle after : List Token} {Q : α → Prop} {R : β → Prop}

namespace Accepts

/-- A parser after another one accepts what the two accept. -/
theorem bind {p : Parse α} {f : α → Parse β} (hp : Accepts stream stop p before middle Q)
    (hf : ∀ value, Q value → Accepts stream stop (f value) middle after R) :
    Accepts stream stop (p >>= f) before after R := by
  intro s hs
  obtain ⟨value, s', hrun, hs', hvalue⟩ := hp s hs
  obtain ⟨result, s'', hrun', hs'', hresult⟩ := hf value hvalue s' hs'
  exact ⟨result, s'', (bind_of_ok hrun).trans hrun', hs'', hresult⟩

/-- A weaker property of the result is accepted too. -/
theorem mono {p : Parse α} {Q' : α → Prop} (h : Accepts stream stop p before after Q)
    (hQ : ∀ result, Q result → Q' result) : Accepts stream stop p before after Q' := by
  intro s hs
  obtain ⟨result, s', hrun, hs', hresult⟩ := h s hs
  exact ⟨result, s', hrun, hs', hQ result hresult⟩

/-- A value without a step is accepted wherever it has the property. -/
theorem pure {value : α} (h : Q value) : Accepts stream stop (Pure.pure value) before before Q :=
  fun s hs => ⟨value, s, rfl, hs, h⟩

/-- One more expression accepts what is accepted inside it. -/
theorem nested {p : Parse α} (h : Accepts stream stop p before after Q) :
    Accepts stream stop (nested p) before after Q := by
  intro s hs
  obtain ⟨result, s', hrun, hs', hresult⟩ := h { s with nesting := s.nesting + 1 } hs
  refine ⟨result, { s' with nesting := s'.nesting - 1 }, ?_, hs', hresult⟩
  rw [Parser.nested, hrun]

/-- A node with a new identity is accepted, if it has the property for every identity. -/
theorem node {node : NodeId → α} (h : ∀ id, Q (node id)) :
    Accepts stream stop (freshId >>= fun id => Pure.pure (node id)) before before Q :=
  fun s hs => ⟨node s.nextId, _, rfl, hs, h s.nextId⟩

end Accepts

/-! ## The basic steps -/

/-- The current token is the first one ahead. -/
theorem current_accepts :
    Accepts stream stop (current stream) (token :: after) (token :: after) (· = token) :=
  fun _ hs => ⟨_, _, rfl, hs.significant, hs.of_cons.1⟩

/-- The current kind is that of the first token ahead. -/
theorem current_kind_accepts :
    Accepts stream stop (currentKind stream) before before (· = Token.upcoming before) :=
  fun _ hs => ⟨_, _, rfl, hs.significant, hs.next_kind⟩

/-- The first token ahead can be passed. -/
theorem advance_accepts :
    Accepts stream stop (advance stream) (token :: after) after (· = token) := by
  intro s hs
  obtain ⟨hnext, hend, hrest⟩ := hs.of_cons
  refine ⟨_, _, rfl, ?_, hnext⟩
  have hkind : (stream.get (stream.significant s.pos)).kind ≠ .endOfInput := by
    intro hkind
    rw [← hnext] at hend
    exact hend hkind
  simpa only [if_neg hkind] using hrest

/-- A token of the expected kind can be passed. -/
theorem expect_accepts {kind : Kind} (h : token.kind = kind) :
    Accepts stream stop (expect stream kind) (token :: after) after (· = token) := by
  refine current_accepts.bind fun found hfound => ?_
  rw [hfound, if_pos h]
  exact advance_accepts

/-- The end of input is expected where nothing is ahead. -/
theorem expect_end_accepts :
    Accepts stream stop (expect stream .endOfInput) [] [] fun _ => True := by
  intro s hs
  have hkind : (stream.get (stream.significant s.pos)).kind = .endOfInput := hs.next_kind
  refine ⟨stream.next s.pos, { s with pos := stream.significant s.pos }, ?_, hs.significant,
    trivial⟩
  unfold expect
  change EStateM.bind (current stream) _ s = _
  simp only [EStateM.bind, current, hkind, if_true, advance, TokenStream.significant_significant,
    TokenStream.next]

/-- Waiting for a kind of token changes nothing where no fault is raised. -/
theorem recovering_accepts (kind : Kind) (ofFault : Fault → α) {body : Parse α}
    (h : Accepts stream stop body before after Q) :
    Accepts stream stop (recovering stream kind ofFault body) before after Q := by
  intro s hs
  obtain ⟨result, s', hrun, hs', hresult⟩ :=
    h { s with awaited := ⟨kind, s.pos⟩ :: s.awaited } hs
  refine ⟨result, { s' with awaited := s'.awaited.tail }, ?_, hs', hresult⟩
  rw [recovering, hrun]

/-! ## Lists of items -/

/-- No item is parsed if the terminator comes next. -/
theorem items_until_end {terminator : Kind} (ofFault : Fault → α) (item : Parse α)
    (items : List α) {s : State} (h : (stream.next s.pos).kind = terminator) :
    itemsUntil stream terminator ofFault item items s =
      .ok items.reverse { s with pos := stream.significant s.pos } := by
  rw [itemsUntil]
  exact if_pos h

/-- An item is parsed if the terminator does not come next. -/
theorem items_until_of_ne {terminator : Kind} (ofFault : Fault → α) (item : Parse α)
    (items : List α) {s : State} (h : (stream.next s.pos).kind ≠ terminator) :
    itemsUntil stream terminator ofFault item items s =
      match recovering stream terminator ofFault item
        { s with pos := stream.significant s.pos } with
      | .error fault s' => .error fault s'
      | .ok found s' =>
        if stream.remaining s'.pos < stream.remaining s.pos then
          itemsUntil stream terminator ofFault item (found :: items) s'
        else .ok (found :: items).reverse s' := by
  rw [itemsUntil]
  exact if_neg h

/-- The tokens ahead are those of a list of items up to a terminator: each item is accepted up to
the image under `f`, and takes some of the tokens. -/
inductive Series {γ : Type} (stream : TokenStream) (stop : Nat) (terminator : Kind)
    (item : Parse α) (f : α → γ) : List α → List Token → List Token → Prop
  | done {before : List Token} : Token.upcoming before = terminator →
      Series stream stop terminator item f [] before before
  | item {before middle after : List Token} {wanted : α} {items : List α} :
      Token.upcoming before ≠ terminator →
      Accepts stream stop item before middle (fun found => f found = f wanted) →
      middle.length < before.length → Series stream stop terminator item f items middle after →
      Series stream stop terminator item f (wanted :: items) before after

/-- Items end at the terminator. -/
theorem items_until_done {terminator : Kind} {ofFault : Fault → α} {item : Parse α}
    {items : List α} (h : Token.upcoming before = terminator) :
    Accepts stream stop (itemsUntil stream terminator ofFault item items) before before
      (· = items.reverse) := by
  intro s hs
  have hkind : stream.kindAt (stream.significant s.pos) = terminator := hs.next_kind.trans h
  refine ⟨items.reverse, { s with pos := stream.significant s.pos }, ?_, hs.significant, rfl⟩
  rw [itemsUntil, if_pos hkind]

/-- An item that takes some of the tokens ahead is followed by the other items. -/
theorem items_until_item {terminator : Kind} {ofFault : Fault → α} {item : Parse α}
    {items : List α} {S : List α → Prop} (h : Token.upcoming before ≠ terminator)
    (hitem : Accepts stream stop item before middle Q) (hlength : middle.length < before.length)
    (hmore : ∀ found, Q found →
      Accepts stream stop (itemsUntil stream terminator ofFault item (found :: items)) middle after
        S) :
    Accepts stream stop (itemsUntil stream terminator ofFault item items) before after S := by
  intro s hs
  have hkind : stream.kindAt (stream.significant s.pos) ≠ terminator := by
    rw [← hs.next_kind] at h
    exact h
  obtain ⟨found, s', hrun, hs', hfound⟩ :=
    recovering_accepts terminator ofFault hitem { s with pos := stream.significant s.pos }
      hs.significant
  obtain ⟨results, s'', hrun', hs'', hresults⟩ := hmore found hfound s' hs'
  refine ⟨results, s'', ?_, hs'', hresults⟩
  -- the loop goes on only if the item has made the stream shorter
  rw [itemsUntil, if_neg hkind, hrun]
  simp only [if_pos (hs.remaining_lt hs' hlength)]
  exact hrun'

/-- A list of items is accepted after the items found before. -/
theorem items_until_accepts {γ : Type} {terminator : Kind} {item : Parse α} {f : α → γ}
    {items : List α} (ofFault : Fault → α)
    (h : Series stream stop terminator item f items before after) (found : List α) :
    Accepts stream stop (itemsUntil stream terminator ofFault item found) before after
      fun results => results.map f = found.reverse.map f ++ items.map f := by
  induction h generalizing found with
  | done hend =>
      refine (items_until_done hend).mono fun results hresults => ?_
      rw [hresults, List.map_nil, List.append_nil]
  | item hne hitem hlength _ ih =>
      refine items_until_item hne hitem hlength fun result hresult => ?_
      refine (ih (result :: found)).mono fun results hresults => ?_
      rw [hresults, List.reverse_cons, List.map_append, List.append_assoc, List.map_singleton,
        hresult, List.singleton_append, List.map_cons]

end Parser

end LetScript
