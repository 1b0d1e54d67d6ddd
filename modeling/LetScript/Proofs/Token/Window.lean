import LetScript.Token.Stream

/-!
# Windows of a token stream

A reader that goes from one position of a stream to another has read the tokens between them.
`TokenStream.window` gives those that are not blank, and `TokenStream.Passes` says that the end of
input is not among them. Windows that meet at a position add up, the window of a skipped run of
blank tokens is empty, and a window that starts at a token begins with it.
-/

namespace LetScript

/-- The tokens of a list that are not blank. -/
def Token.significant (tokens : List Token) : List Token :=
  tokens.filter fun token => token.kind ≠ .blank

/-- The significant tokens of a token sequence before its first end of input. -/
def Token.program (tokens : Array Token) : List Token :=
  Token.significant (tokens.toList.takeWhile fun token => token.kind ≠ .endOfInput)

@[simp] theorem Token.significant_nil : Token.significant [] = [] := rfl

@[simp] theorem Token.significant_append (first second : List Token) :
    Token.significant (first ++ second) = Token.significant first ++ Token.significant second :=
  List.filter_append ..

/-- A token that is not blank is significant. -/
theorem Token.significant_singleton {token : Token} (h : token.kind ≠ .blank) :
    Token.significant [token] = [token] := by
  simp [Token.significant, h]

namespace TokenStream

variable {stream : TokenStream}

/-- The significant tokens from one position up to another. -/
def window (stream : TokenStream) (start stop : Nat) : List Token :=
  Token.significant (stream.slice start stop)

/-- The first significant token from a position on. -/
def next (stream : TokenStream) (pos : Nat) : Token := stream.get (stream.significant pos)

/-- The second position is reached from the first one without passing an end of input. -/
structure Passes (stream : TokenStream) (start stop : Nat) : Prop where
  le : start ≤ stop
  kind_ne : ∀ pos, start ≤ pos → pos < stop → stream.kindAt pos ≠ .endOfInput

namespace Passes

/-- Staying at a position passes nothing. -/
theorem refl (stream : TokenStream) (pos : Nat) : stream.Passes pos pos :=
  ⟨Nat.le_refl pos, fun _ hle hlt => absurd hlt (Nat.not_lt.2 hle)⟩

/-- Two parts of a way that pass no end of input make a whole that passes none. -/
theorem trans {first second third : Nat} (h : stream.Passes first second)
    (h' : stream.Passes second third) : stream.Passes first third := by
  refine ⟨Nat.le_trans h.le h'.le, fun pos hle hlt => ?_⟩
  by_cases hsecond : pos < second
  · exact h.kind_ne pos hle hsecond
  · exact h'.kind_ne pos (Nat.le_of_not_lt hsecond) hlt

/-- A token of another kind than the end of input may be passed. -/
theorem succ {pos : Nat} (h : stream.kindAt pos ≠ .endOfInput) : stream.Passes pos (pos + 1) := by
  refine ⟨Nat.le_succ pos, fun other hle hlt => ?_⟩
  obtain rfl : other = pos := by omega
  exact h

/-- A way that passes no end of input stays within the stream, unless it leads nowhere. -/
theorem le_size {start stop : Nat} (h : stream.Passes start stop) (hlt : start < stop) :
    stop ≤ stream.body.size := by
  have hlast := lt_size_of_kind_at_ne (h.kind_ne (stop - 1) (by omega) (by omega))
  omega

/-- The part of a way after one of its positions. -/
theorem of_le {start middle stop : Nat} (h : stream.Passes start stop) (hle : start ≤ middle)
    (hle' : middle ≤ stop) : stream.Passes middle stop :=
  ⟨hle', fun pos hpos hlt => h.kind_ne pos (Nat.le_trans hle hpos) hlt⟩

/-- A way that ends at an end of input cannot be led past it. -/
theorem le_of_end {start stop other : Nat} (h : stream.Passes start other)
    (hend : stream.kindAt stop = .endOfInput) (hle : start ≤ stop) : other ≤ stop :=
  Nat.le_of_not_lt fun hlt => h.kind_ne stop hle hlt hend

end Passes

/-- Skipping blank tokens passes no end of input. -/
theorem passes_significant (stream : TokenStream) (pos : Nat) :
    stream.Passes pos (stream.significant pos) := by
  refine ⟨le_significant stream pos, fun other hle hlt => ?_⟩
  rw [kind_at_of_lt_significant hle hlt]
  decide

/-- Skipping to one of some kinds passes no end of input if it is among them. -/
theorem passes_skip_to (stream : TokenStream) {kinds : List Kind} (pos : Nat)
    (h : .endOfInput ∈ kinds) : stream.Passes pos (stream.skipTo kinds pos) := by
  fun_induction skipTo stream kinds pos with
  | case1 pos hskip ih =>
      have hne : stream.kindAt pos ≠ .endOfInput := by
        intro hend
        exact hskip.2 (hend ▸ h)
      exact (Passes.succ hne).trans ih
  | case2 pos _ => exact Passes.refl stream pos

/-- A position that does not hold a blank token is where skipping blank tokens ends. -/
theorem significant_of_ne {pos : Nat} (h : stream.kindAt pos ≠ .blank) :
    stream.significant pos = pos := by
  rw [significant, dif_neg h]

/-- Skipping blank tokens twice is skipping them once. -/
@[simp] theorem significant_significant (stream : TokenStream) (pos : Nat) :
    stream.significant (stream.significant pos) = stream.significant pos :=
  significant_of_ne (kind_at_significant_ne stream pos)

/-- Skipping blank tokens does not change which token comes next. -/
@[simp] theorem next_significant (stream : TokenStream) (pos : Nat) :
    stream.next (stream.significant pos) = stream.next pos := by
  simp only [next, significant_significant]

/-- A token that is not blank comes next at its own position. -/
theorem next_of_ne {pos : Nat} (h : stream.kindAt pos ≠ .blank) :
    stream.next pos = stream.get pos := by
  rw [next, significant_of_ne h]

/-- A slice holds the tokens before its end, from its start on. -/
theorem slice_eq_drop_take (stream : TokenStream) (start stop : Nat) :
    stream.slice start stop = (stream.body.toList.take stop).drop start := by
  rw [slice, Array.toList_extract, List.extract_eq_take_drop, List.drop_take]

/-- Slices that meet at a position add up. -/
theorem slice_append {start middle stop : Nat} (h : start ≤ middle) (h' : middle ≤ stop) :
    stream.slice start middle ++ stream.slice middle stop = stream.slice start stop := by
  simp only [slice, ← Array.toList_append, Array.extract_append_extract, Nat.min_eq_left h,
    Nat.max_eq_right h']

/-- Windows that meet at a position add up. -/
theorem window_append {start middle stop : Nat} (h : start ≤ middle) (h' : middle ≤ stop) :
    stream.window start middle ++ stream.window middle stop = stream.window start stop := by
  rw [window, window, window, ← Token.significant_append, slice_append h h']

/-- A window without width is empty. -/
@[simp] theorem window_self (stream : TokenStream) (pos : Nat) : stream.window pos pos = [] := by
  simp [window, slice]

/-- A slice without a position before the last one is empty. -/
theorem slice_of_size_le {start : Nat} (stop : Nat) (h : stream.body.size ≤ start) :
    stream.slice start stop = [] := by
  rw [slice, Array.extract_eq_empty_of_le (by omega)]

/-- A window in which the stream got no shorter is empty. -/
theorem window_of_remaining_le {start stop : Nat} (h : start ≤ stop)
    (hremaining : stream.remaining start ≤ stream.remaining stop) :
    stream.window start stop = [] := by
  simp only [remaining] at hremaining
  by_cases hsize : stream.body.size ≤ start
  · rw [window, slice_of_size_le stop hsize, Token.significant_nil]
  · obtain rfl : start = stop := by omega
    exact window_self stream start

/-- The slice at a position before the last one holds its token. -/
theorem slice_succ {pos : Nat} (h : pos < stream.body.size) :
    stream.slice pos (pos + 1) = [stream.get pos] := by
  rw [slice, Array.extract_succ_right (Nat.lt_succ_self pos) h, get, Array.getElem?_eq_getElem h,
    Array.extract_eq_empty_of_le (by omega)]
  rfl

/-- The window at a token that is neither blank nor the end of input holds just this token. -/
theorem window_succ {pos : Nat} (hblank : stream.kindAt pos ≠ .blank)
    (hend : stream.kindAt pos ≠ .endOfInput) :
    stream.window pos (pos + 1) = [stream.get pos] := by
  rw [window, slice_succ (lt_size_of_kind_at_ne hend), Token.significant_singleton hblank]

/-- There is nothing in the window of a run of blank tokens. -/
@[simp] theorem window_significant (stream : TokenStream) (pos : Nat) :
    stream.window pos (stream.significant pos) = [] := by
  fun_induction significant stream pos with
  | case1 pos h ih =>
      have hlt : pos < stream.body.size := lt_size_of_kind_at_ne (by rw [h]; decide)
      have hkind : (stream.get pos).kind = .blank := h
      rw [← window_append (Nat.le_succ pos) (le_significant stream (pos + 1)), ih, window,
        slice_succ hlt]
      simp [Token.significant, hkind]
  | case2 pos _ => exact window_self stream pos

/-- Skipping blank tokens first does not change a window. -/
theorem window_of_significant {start stop : Nat} (h : stream.significant start ≤ stop) :
    stream.window (stream.significant start) stop = stream.window start stop := by
  rw [← window_append (le_significant stream start) h, window_significant, List.nil_append]

/-- The window up to the token after a run of blank tokens holds just this token. -/
theorem window_significant_succ {pos : Nat} (h : (stream.next pos).kind ≠ .endOfInput) :
    stream.window pos (stream.significant pos + 1) = [stream.next pos] := by
  rw [← window_of_significant (Nat.le_succ _)]
  exact window_succ (kind_at_significant_ne stream pos) h

/-! ## The stream of a token sequence -/

/-- The tokens of a stream before its first end of input. -/
theorem slice_eq_take_while {stop : Nat} (h : stream.Passes 0 stop)
    (hend : stream.kindAt stop = .endOfInput) :
    stream.slice 0 stop =
      stream.body.toList.takeWhile fun token => token.kind ≠ .endOfInput := by
  have hslice : stream.slice 0 stop = stream.body.toList.take stop := by
    simp [slice]
  have hrest :
      (stream.body.toList.drop stop).takeWhile (fun token => token.kind ≠ .endOfInput) = [] := by
    by_cases hlt : stop < stream.body.size
    · rw [List.drop_eq_getElem_cons (by simpa using hlt)]
      have hkind : stream.body[stop].kind = .endOfInput := by
        simpa [kindAt, get, Array.getElem?_eq_getElem hlt] using hend
      simp [hkind]
    · rw [List.drop_eq_nil_of_le (by simpa using hlt)]
      rfl
  have hfirst : ∀ token ∈ stream.body.toList.take stop,
      decide (token.kind ≠ .endOfInput) = true := by
    intro token htoken
    obtain ⟨pos, hpos, rfl⟩ := List.mem_take_iff_getElem.1 htoken
    have hlt : pos < stop ∧ pos < stream.body.size := by
      simp only [Array.length_toList] at hpos
      omega
    have hne := h.kind_ne pos (Nat.zero_le pos) hlt.1
    simpa [kindAt, get, Array.getElem?_eq_getElem hlt.2] using hne
  conv => rhs; rw [← List.take_append_drop stop stream.body.toList]
  rw [List.takeWhile_append_of_pos hfirst, hrest, List.append_nil, hslice]

/-- Closing a token sequence by an end of input does not change its significant tokens before the
first one. -/
theorem program_of_tokens (tokens : Array Token) :
    Token.program tokens = Token.significant
      ((ofTokens tokens).body.toList.takeWhile fun token => token.kind ≠ .endOfInput) := by
  unfold ofTokens
  split
  next last hlast =>
    split
    next hend =>
      have htokens : tokens = tokens.pop.push last := by
        obtain ⟨hsize, hget⟩ := Array.back?_eq_some_iff.1 hlast
        simp [hget]
      have hlist : tokens.toList = tokens.pop.toList ++ [last] := by
        conv => lhs; rw [htokens]
        exact Array.toList_push ..
      rw [Token.program, hlist, List.takeWhile_append]
      split
      next hlength =>
        rw [(List.takeWhile_sublist _).eq_of_length hlength]
        simp [hend]
      next => rfl
    next => rfl
  next => rfl

/-- The significant tokens of a sequence before its first end of input are those read from the
start of its stream up to an end of input. -/
theorem window_eq_program {tokens : Array Token} {stop : Nat}
    (h : (ofTokens tokens).Passes 0 stop)
    (hend : (ofTokens tokens).kindAt stop = .endOfInput) :
    (ofTokens tokens).window 0 stop = Token.program tokens := by
  rw [window, slice_eq_take_while h hend, program_of_tokens]

end TokenStream

end LetScript
