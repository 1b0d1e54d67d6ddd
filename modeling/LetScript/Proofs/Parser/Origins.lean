import LetScript.Proofs.Parser.Invariant
import LetScript.Proofs.Token.Order

/-!
# Where faults come from

A fault of a parsed tree either stands for an invalid token in its place, or it was raised at a
token of the stream, by which the parser says what it found there (`Tree.parse_found`). A raised
fault that was found at an invalid token has skipped this token, as no construct waits for one. So
every invalid token is among the skipped ones of its fault, whichever way it was met.
-/

namespace LetScript

namespace TokenStream

variable {stream : TokenStream}

/-- All tokens of a stream. -/
def tokens (stream : TokenStream) : List Token := stream.body.toList ++ [stream.last]

/-- The stream of a token sequence that is closed by an end of input has just its tokens. -/
theorem tokens_of_tokens {tokens : Array Token} {front : List Token} {last : Token}
    (htokens : tokens.toList = front ++ [last]) (hlast : last.kind = .endOfInput) :
    (ofTokens tokens).tokens = tokens.toList := by
  have hback : tokens.back? = some last := by
    rw [← Array.getLast?_toList, htokens, List.getLast?_concat]
  have hfront : tokens.pop.toList = front := by
    rw [Array.toList_pop, htokens, List.dropLast_concat]
  unfold ofTokens TokenStream.tokens
  simp only [hback, hlast, dif_pos]
  rw [hfront, htokens]

/-- The tokens of a stream up to the last one are those at its positions. -/
theorem get_elem_tokens {pos : Nat} (h : pos ≤ stream.body.size) :
    stream.tokens[pos]? = some (stream.get pos) := by
  unfold tokens get
  rcases Nat.eq_or_lt_of_le h with rfl | hlt
  · simp
  · rw [List.getElem?_append_left (by simpa using hlt)]
    simp [hlt]

/-- The token at any position is one of the stream. -/
theorem get_mem (stream : TokenStream) (pos : Nat) : stream.get pos ∈ stream.tokens := by
  unfold get tokens
  cases hget : stream.body[pos]? with
  | none => exact List.mem_append_right _ (List.mem_singleton.2 rfl)
  | some token => exact List.mem_append_left _ (Array.mem_def.1 (Array.mem_of_getElem? hget))

/-- The tokens of a slice are tokens of the stream. -/
theorem slice_subset (stream : TokenStream) (start stop : Nat) :
    stream.slice start stop ⊆ stream.tokens := by
  intro token htoken
  refine List.mem_append_left _ ?_
  rw [slice, Array.toList_extract] at htoken
  exact List.mem_of_mem_drop (List.mem_of_mem_take htoken)

/-- A slice holds the tokens at its positions. -/
theorem get_mem_slice {start pos stop : Nat} (hstart : start ≤ pos) (hstop : pos < stop)
    (hsize : pos < stream.body.size) : stream.get pos ∈ stream.slice start stop := by
  rw [← slice_append hstart (Nat.le_of_lt hstop), ← slice_append (Nat.le_succ pos) hstop,
    slice_succ hsize]
  simp

/-- Skipping blank tokens first does not change where skipping to some kinds ends. -/
theorem skip_to_significant {kinds : List Kind} (hblank : .blank ∉ kinds) (pos : Nat) :
    stream.skipTo kinds (stream.significant pos) = stream.skipTo kinds pos := by
  fun_induction significant stream pos with
  | case1 pos h ih =>
      have hsize : pos < stream.body.size := lt_size_of_kind_at_ne (by rw [h]; decide)
      rw [ih]
      conv => rhs; rw [skipTo, dif_pos ⟨hsize, h ▸ hblank⟩]
  | case2 pos _ => rfl

/-- A token of another kind is skipped. -/
theorem lt_skip_to {kinds : List Kind} {pos : Nat} (hsize : pos < stream.body.size)
    (hkind : stream.kindAt pos ∉ kinds) : pos < stream.skipTo kinds pos := by
  rw [skipTo, dif_pos ⟨hsize, hkind⟩]
  exact le_skip_to ..

end TokenStream

/-- A fault was raised at its token. -/
structure Fault.IsRaised (fault : Fault) : Prop where
  fits : fault.diagnostic.cause.Fits fault.token
  position_eq : fault.diagnostic.position = fault.token.span.start
  skipped : fault.token.kind = .invalid → fault.token ∈ fault.skipped

/-- A fault stands for its token, in its place. -/
structure Fault.InPlace (fault : Fault) : Prop where
  diagnostic_eq : fault.diagnostic =
    fault.token.diagnostic.getD ⟨.unrecognisedSymbol, fault.token.span.start⟩
  skipped_eq : fault.skipped = [fault.token]

/-- A fault that was made from some tokens: it was raised at one of them or stands for it. -/
structure Fault.Found (tokens : List Token) (fault : Fault) : Prop where
  token_mem : fault.token ∈ tokens
  kind_ne : fault.token.kind ≠ .blank
  subset : fault.skipped ⊆ tokens
  origin : fault.IsRaised ∨ fault.InPlace

namespace Parser

variable {stream : TokenStream}

/-- A fault that is raised where no invalid token is awaited skips the token at which it was found,
if this is invalid. -/
theorem Raised.skipped {s s' : State} {fault : Fault} (h : Raised stream s fault s')
    (hs : s.Ready) (hawaits : .invalid ∉ s.awaited.map Awaited.kind)
    (hkind : fault.token.kind = .invalid) : fault.token ∈ fault.skipped := by
  obtain ⟨entry, hentry, hskipped⟩ := h.unwound.innermost
  have hnext : stream.kindAt (stream.significant s.pos) = .invalid := by
    rw [← hkind, h.token_eq]
    rfl
  have hsize := TokenStream.lt_size_of_kind_at_ne (by rw [hnext]; decide)
  have hlt := TokenStream.lt_skip_to hsize (hnext ▸ hawaits)
  rw [TokenStream.skip_to_significant hs.no_blank, ← h.pos_eq] at hlt
  have hstart := Nat.le_trans (hs.started entry hentry.mem) (stream.le_significant s.pos)
  rw [hskipped, h.token_eq]
  exact TokenStream.get_mem_slice hstart hlt hsize

/-- The parser makes its faults from the tokens of the stream. -/
def foundInvariant (stream : TokenStream) : Invariant stream where
  within _ := True
  awaits kinds := .invalid ∉ kinds
  made := Fault.Found stream.tokens
  skip _ := trivial
  opens _ _ := trivial
  closes _ _ _ _ _ _ := trivial
  continues _ _ := trivial
  await := by
    intro kinds kind hkinds hkind hmem
    have hne : ∀ kind ∈ Kind.terminators, kind ≠ .invalid := by decide
    rcases List.mem_cons.1 hmem with heq | hmem
    · exact hne kind hkind heq.symm
    · exact hkinds hmem
  raises := by
    intro s s' fault hs _ hawaits h
    obtain ⟨entry, -, hskipped⟩ := h.unwound.innermost
    refine ⟨trivial, ?_, ?_, ?_, .inl ⟨h.fits, h.position_eq, h.skipped hs hawaits⟩⟩
    · rw [h.token_eq]
      exact stream.get_mem _
    · rw [h.token_eq]
      exact stream.kind_at_significant_ne _
    · rw [hskipped]
      exact stream.slice_subset _ _
  leaf := by
    intro pos id _ _
    refine ⟨stream.get_mem _, stream.kind_at_significant_ne _, ?_, .inr ⟨rfl, rfl⟩⟩
    exact List.cons_subset.2 ⟨stream.get_mem _, List.nil_subset _⟩

end Parser

/-- The faults of a parsed tree were made from the tokens of the sequence, if it is closed by an end
of input. -/
theorem Tree.parse_found_of_closed {tokens : Array Token} {front : List Token} {last : Token}
    (htokens : tokens.toList = front ++ [last]) (hlast : last.kind = .endOfInput) :
    ∀ fault ∈ (Tree.parse tokens).faults, fault.Found tokens.toList := by
  rw [← TokenStream.tokens_of_tokens htokens hlast]
  exact Tree.parse_made (Parser.foundInvariant _) trivial
    (show Kind.invalid ∉ [Kind.endOfInput] by decide)

/-- The faults of a parsed tree were made from the tokens of the sequence. -/
theorem Tree.parse_found {tokens : Array Token} (h : Token.Arranged tokens.toList) :
    ∀ fault ∈ (Tree.parse tokens).faults, fault.Found tokens.toList := by
  obtain ⟨front, last, htokens, hlast, -⟩ := h.closed
  exact Tree.parse_found_of_closed htokens hlast

end LetScript
