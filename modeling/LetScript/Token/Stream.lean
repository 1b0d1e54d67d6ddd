import LetScript.Token.Basic

/-!
# Token streams

A token stream is a token sequence that ends with an end of input. Every position has a token:
the positions past the end hold the end of input again. A reader of the stream skips blank tokens
with `significant`, and after a fault skips to a token of a kind it knows with `skipTo`.
-/

namespace LetScript

/-- A token sequence closed by an end of input. -/
structure TokenStream where
  /-- The tokens before the last one. -/
  body : Array Token
  /-- The last token. -/
  last : Token
  kind_last : last.kind = .endOfInput

namespace TokenStream

/-- The stream of a token sequence. An end of input is added if the last token is none. -/
def ofTokens (tokens : Array Token) : TokenStream :=
  match tokens.back? with
  | some last =>
    if h : last.kind = .endOfInput then ⟨tokens.pop, last, h⟩
    else ⟨tokens, .endOfInput last.span.stop, rfl⟩
  | none => ⟨tokens, .endOfInput .nowhere, rfl⟩

/-- The token at a position. -/
def get (stream : TokenStream) (pos : Nat) : Token := stream.body[pos]?.getD stream.last

/-- The kind of the token at a position. -/
def kindAt (stream : TokenStream) (pos : Nat) : Kind := (stream.get pos).kind

/-- The number of tokens from a position to the end, the last one not counted. -/
def remaining (stream : TokenStream) (pos : Nat) : Nat := stream.body.size - pos

/-- The tokens from one position up to another. -/
def slice (stream : TokenStream) (start stop : Nat) : List Token :=
  (stream.body.extract start stop).toList

/-- The positions from the last one on hold the end of input. -/
theorem kind_at_of_size_le {stream : TokenStream} {pos : Nat} (h : stream.body.size ≤ pos) :
    stream.kindAt pos = .endOfInput := by
  rw [kindAt, get, Array.getElem?_eq_none h]
  exact stream.kind_last

/-- A position that holds another kind than the end of input is not the last one. -/
theorem lt_size_of_kind_at_ne {stream : TokenStream} {pos : Nat}
    (h : stream.kindAt pos ≠ .endOfInput) : pos < stream.body.size :=
  Nat.lt_of_not_le fun hle => h (kind_at_of_size_le hle)

/-- The first position from `pos` on that does not hold a blank token. -/
def significant (stream : TokenStream) (pos : Nat) : Nat :=
  if h : stream.kindAt pos = .blank then significant stream (pos + 1) else pos
termination_by stream.remaining pos
decreasing_by
  have hlt : pos < stream.body.size := lt_size_of_kind_at_ne (by rw [h]; decide)
  simp only [remaining]
  omega

/-- The first position from `pos` on that holds a token of one of the kinds, or the last
position. -/
def skipTo (stream : TokenStream) (kinds : List Kind) (pos : Nat) : Nat :=
  if h : pos < stream.body.size ∧ stream.kindAt pos ∉ kinds then skipTo stream kinds (pos + 1)
  else pos
termination_by stream.remaining pos
decreasing_by
  simp only [remaining]
  omega

/-- Skipping blank tokens does not go back. -/
theorem le_significant (stream : TokenStream) (pos : Nat) : pos ≤ stream.significant pos := by
  fun_induction significant stream pos with
  | case1 pos _ ih => omega
  | case2 pos _ => exact Nat.le_refl pos

/-- The token after the skipped ones is not blank. -/
theorem kind_at_significant_ne (stream : TokenStream) (pos : Nat) :
    stream.kindAt (stream.significant pos) ≠ .blank := by
  fun_induction significant stream pos with
  | case1 pos _ ih => exact ih
  | case2 pos h => exact h

/-- Only blank tokens are skipped. -/
theorem kind_at_of_lt_significant {stream : TokenStream} {pos between : Nat} (hle : pos ≤ between)
    (hlt : between < stream.significant pos) : stream.kindAt between = .blank := by
  fun_induction significant stream pos with
  | case1 pos h ih =>
    rcases Nat.eq_or_lt_of_le hle with rfl | hnext
    · exact h
    · exact ih hnext hlt
  | case2 pos _ => omega

/-- Skipping to a kind of token does not go back. -/
theorem le_skip_to (stream : TokenStream) (kinds : List Kind) (pos : Nat) :
    pos ≤ stream.skipTo kinds pos := by
  fun_induction skipTo stream kinds pos with
  | case1 pos _ ih => omega
  | case2 pos _ => exact Nat.le_refl pos

/-- Skipping ends at a token of one of the kinds, if the end of input is among them. -/
theorem kind_at_skip_to_mem (stream : TokenStream) {kinds : List Kind} (pos : Nat)
    (h : .endOfInput ∈ kinds) : stream.kindAt (stream.skipTo kinds pos) ∈ kinds := by
  fun_induction skipTo stream kinds pos with
  | case1 pos _ ih => exact ih
  | case2 pos hstop =>
    by_cases hlt : pos < stream.body.size
    · exact Decidable.not_not.1 fun hmem => hstop ⟨hlt, hmem⟩
    · rw [kind_at_of_size_le (Nat.le_of_not_lt hlt)]
      exact h

end TokenStream

end LetScript
