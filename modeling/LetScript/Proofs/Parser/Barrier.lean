import LetScript.Proofs.Parser.Acceptance
import LetScript.Proofs.Parser.Invariant
import LetScript.Proofs.Parser.Origins
import LetScript.Proofs.Parser.Precedence

/-!
# Tokens that a parser does not pass

While a construct waits for a kind of token, no part of it passes the next token of this kind, if
no let and no record is opened before it: neither has an expression a rule for such a token, nor
does a fault skip it (`Barrier.invariant`). So a definition that waits for its semicolon ends at the
latest where the construct around it goes on. There it ends if it raises a fault. If it gives a
result, then either it has read all tokens before the barrier, or these go on after a definition
that is finished (`Token.Overruns`), and this is the only other case (`Barrier.definition_cases`).
-/

namespace LetScript

/-! ## Finished expressions -/

/-- An expression that was read to its end. A fault in it stands for a single invalid token, or it
stands between parentheses, for an item or for a parameter. -/
def Tree.Finished : Tree → Prop
  | .fault f => ∃ token, f.skipped = [token] ∧ token.kind = .invalid
  | .paren _ _ inner _ => inner.Finished ∨ inner.kind = .fault
  | .letIn _ _ _ _ body => body.Finished
  | .function _ _ _ _ body => body.Finished
  | .unary _ _ operand => operand.Finished
  | .binary _ left _ right => left.Finished ∧ right.Finished
  | .apply _ callee argument => callee.Finished ∧ argument.Finished
  | _ => True

/-- The tokens go on after a definition that was read to its end: the next token does not continue
its value, which is continued by the tokens above a power. -/
inductive Token.Overruns (floor : Power) : List Token → Prop
  | intro {id : NodeId} {name equals next : Token} {value : Tree} {w rest : List Token} :
      (Item.definition id name equals value).Derives w →
      (Item.definition id name equals value).Regular floor (maxNesting - 1) → value.Finished →
      next.level ≤ floor.rank → next.level ≤ value.tail → Token.Overruns floor (w ++ next :: rest)

namespace Parser

open Reading

/-- An expression that was read by the rule of its first token is finished, if its operands are. -/
theorem prefix_form_finished {P : Power → Reading Tree}
    (hP : ∀ power first tree w next, P power first tree w next → tree.Finished)
    {rule : PrefixRule} {first next : Token} {tree : Tree} {w : List Token}
    (hfirst : first.kind ∈ rule.starts) (h : PrefixForm P rule first tree w next) :
    tree.Finished := by
  cases h with
  | identifier | literal | placeholder | record => trivial
  | invalid hskipped => exact ⟨first, hskipped, List.mem_singleton.1 hfirst⟩
  | function id hparams hbody =>
      have hfinished := hP _ _ _ _ _ hbody
      exact hfinished
  | letIn id hitems hbody =>
      have hfinished := hP _ _ _ _ _ hbody
      exact hfinished
  | group id hinner hcloser =>
      rcases hinner with hinner | ⟨fault, rfl, -, -⟩
      · exact .inl (hP _ _ _ _ _ hinner)
      · exact .inr rfl
  | sign id hoperand =>
      have hfinished := hP _ _ _ _ _ hoperand
      exact hfinished

/-- Being finished is closed under the layers of the language. -/
theorem finished_interpretation :
    Interpretation .standard (fun _ _ _ tree _ _ => tree.Finished)
      (fun _ _ _ tree _ _ => tree.Finished) where
  of_start hrule hform :=
    prefix_form_finished (fun _ _ _ _ _ => id) (Grammar.mem_starts hrule)
      (hform (Grammar.kind_ne_end hrule))
  of_continuation hleft hrule _ hform _ := by
    cases hform (Grammar.infix_kind_ne_end hrule) with
    | binary id hright => exact ⟨hleft, hright⟩
    | apply id hargument => exact ⟨hleft, hargument⟩
  of_left hleft _ := hleft

/-- A definition that was read to its end, with the token that comes next. -/
theorem overruns_of_definition {floor : Power} {first next : Token} {item : Item}
    {w rest : List Token}
    (hderives : Definition (fun _ tree w _ => tree.Derives w) first item w next)
    (hshaped : Definition (Complete (maxNesting - 1) floor) first item w next)
    (hfinished : Definition (fun _ tree _ _ => tree.Finished) first item w next) :
    Token.Overruns floor (w ++ next :: rest) := by
  cases hderives with
  | mk id hname hequals hvalue =>
      cases hshaped with
      | mk _ _ _ hshaped =>
          cases hfinished with
          | mk _ _ _ hfinished =>
              have hitem : (Item.definition id _ _ _).Derives _ := .definition hname hequals hvalue
              exact .intro hitem ⟨hshaped.1.head, hshaped.1.regular⟩ hfinished hshaped.2
                hshaped.1.tail

end Parser

/-! ## Positions before a barrier -/

namespace TokenStream

variable {stream : TokenStream}

/-- Skipping to some kinds does not pass a token of one of them. -/
theorem skip_to_le {kinds : List Kind} {pos stop : Nat} (hle : pos ≤ stop)
    (hkind : stream.kindAt stop ∈ kinds) : stream.skipTo kinds pos ≤ stop := by
  fun_induction skipTo stream kinds pos with
  | case1 pos hskip ih =>
      refine ih (Nat.lt_of_le_of_ne hle ?_)
      rintro rfl
      exact hskip.2 hkind
  | case2 pos _ => exact hle

/-- Skipping blank tokens does not pass a token that is not blank. -/
theorem significant_le {pos stop : Nat} (hle : pos ≤ stop) (hkind : stream.kindAt stop ≠ .blank) :
    stream.significant pos ≤ stop :=
  Nat.le_of_not_lt fun hlt => hkind (kind_at_of_lt_significant hle hlt)

/-- A token that is not blank is in every window around it that passes no end of input. -/
theorem get_mem_window {start pos stop : Nat} (hpasses : stream.Passes start stop)
    (hstart : start ≤ pos) (hstop : pos < stop) (hblank : stream.kindAt pos ≠ .blank) :
    stream.get pos ∈ stream.window start stop := by
  have hsize := lt_size_of_kind_at_ne (hpasses.kind_ne pos hstart hstop)
  exact List.mem_filter.2 ⟨get_mem_slice hstart hstop hsize, decide_eq_true hblank⟩

end TokenStream

namespace Parser

/-- A token ahead stands at a position up to which the tokens before it are read. -/
theorem Ahead.split {stream : TokenStream} {stop pos : Nat} {w rest : List Token} {token : Token}
    (h : Ahead stream stop pos (w ++ token :: rest)) :
    ∃ pos', stream.Passes pos pos' ∧ stream.window pos pos' = w ∧ stream.get pos' = token ∧
      token.kind ≠ .blank ∧ Ahead stream stop pos' (token :: rest) := by
  induction w generalizing pos with
  | nil =>
      have hget : stream.get (stream.significant pos) = token := h.of_cons.1
      refine ⟨_, stream.passes_significant pos, stream.window_significant pos, hget, ?_,
        h.significant⟩
      rw [← hget]
      exact stream.kind_at_significant_ne pos
  | cons first w ih =>
      obtain ⟨hnext, hend, hrest⟩ := h.of_cons
      obtain ⟨pos', hpasses, hwindow, hget, hblank, hahead⟩ := ih hrest
      have hkind : (stream.next pos).kind ≠ .endOfInput := hnext ▸ hend
      have hfirst := (stream.passes_significant pos).trans (.succ hkind)
      refine ⟨pos', hfirst.trans hpasses, ?_, hget, hblank, hahead⟩
      rw [← TokenStream.window_append hfirst.le hpasses.le, hwindow,
        TokenStream.window_significant_succ hkind, hnext, List.singleton_append]

/-- What is read up to a position is ahead together with what is ahead there. -/
theorem Ahead.before {stream : TokenStream} {stop pos pos' : Nat} {rest : List Token}
    (h : Ahead stream stop pos' rest) (hpasses : stream.Passes pos pos') :
    Ahead stream stop pos (stream.window pos pos' ++ rest) where
  passes := hpasses.trans h.passes
  window_eq := by rw [← h.window_eq, TokenStream.window_append hpasses.le h.passes.le]
  ends := h.ends

/-- A fault that has not led past a position has led to it, if no token before it is awaited. -/
theorem Unwound.pos_eq {stream : TokenStream} {s s' : State} {fault : Fault} {stop : Nat}
    (h : Unwound stream s fault s') (hs : s.Ready) (hpasses : stream.Passes s.pos stop)
    (hle : s'.pos ≤ stop)
    (hfree : ∀ token ∈ stream.window s.pos stop, token.kind ∉ s.awaited.map Awaited.kind) :
    s'.pos = stop := by
  obtain ⟨entry, hentry, -⟩ := h.innermost
  refine Nat.le_antisymm hle (Nat.le_of_not_lt fun hlt => ?_)
  exact hfree _ (TokenStream.get_mem_window hpasses h.passes.le hlt (h.kind_ne_blank hs))
    hentry.kind_mem

/-- A token that is awaited stands at a position, and before it, from another position on, there is
none that is awaited, and none that opens a let or a record. -/
structure Barrier (stream : TokenStream) (kinds : List Kind) (start stop : Nat) : Prop where
  passes : stream.Passes start stop
  awaited : stream.kindAt stop ∈ kinds
  closes : stream.kindAt stop ∈ Kind.itemEnds
  free : ∀ token ∈ stream.window start stop, token.kind ∉ kinds
  flat : ∀ token ∈ stream.window start stop, token.kind ∉ [Kind.letWord, .openCurly]

/-- The first of the tokens ahead that ends an item is a barrier for the ones before it. -/
theorem Ahead.barrier {stream : TokenStream} {kinds : List Kind} {stop pos : Nat} {token : Token}
    {g rest : List Token} (h : Ahead stream stop pos (g ++ token :: rest))
    (hmem : token.kind ∈ kinds) (hcloses : token.kind ∈ Kind.itemEnds)
    (hfree : ∀ other ∈ g, other.kind ∉ [Kind.letWord, .openCurly] ++ kinds) :
    ∃ pos', Barrier stream kinds pos pos' ∧ stream.window pos pos' = g ∧
      stream.kindAt pos' = token.kind ∧ Ahead stream stop pos' (token :: rest) := by
  obtain ⟨pos', hpasses, rfl, hget, -, hahead⟩ := h.split
  have hkind : stream.kindAt pos' = token.kind := congrArg Token.kind hget
  refine ⟨pos', ⟨hpasses, hkind ▸ hmem, hkind ▸ hcloses, ?_, ?_⟩, rfl, hkind, hahead⟩
  · exact fun other hother hmem => hfree other hother (List.mem_append_right _ hmem)
  · exact fun other hother hmem => hfree other hother (List.mem_append_left _ hmem)

namespace Barrier

open Reading

variable {stream : TokenStream} {kinds : List Kind} {start stop : Nat}

/-- The token at the barrier is not blank. -/
theorem ne_blank (h : Barrier stream kinds start stop) : stream.kindAt stop ≠ .blank :=
  (Kind.ne_of_mem_item_ends _ h.closes).1

/-- A token of another kind than the one at the barrier may be passed. -/
theorem pass (h : Barrier stream kinds start stop) {pos : Nat} (hpos : start ≤ pos ∧ pos ≤ stop)
    (hkind : (stream.next pos).kind ≠ stream.kindAt stop) :
    start ≤ stream.significant pos + 1 ∧ stream.significant pos + 1 ≤ stop := by
  have hle := stream.le_significant pos
  have hstop := TokenStream.significant_le hpos.2 h.ne_blank
  have hne : stream.significant pos ≠ stop := by
    rintro heq
    unfold TokenStream.next at hkind
    rw [heq] at hkind
    exact hkind rfl
  omega

/-- No expression starts at a barrier. -/
theorem next_ne (h : Barrier stream kinds start stop) {pos : Nat} {rule : PrefixRule}
    (hrule : Grammar.standard.prefixRule (stream.next pos).kind = some rule) :
    (stream.next pos).kind ≠ stream.kindAt stop := by
  intro heq
  rw [heq, (Kind.no_rule_of_mem_item_ends _ h.closes).1] at hrule
  cases hrule

/-- Neither a let nor a record starts before a barrier, so what starts there is not closed by the
token at the barrier. -/
theorem closer_ne (h : Barrier stream kinds start stop) {pos : Nat} {rule : PrefixRule}
    {kind : Kind} (hpos : start ≤ pos ∧ pos ≤ stop)
    (hrule : Grammar.standard.prefixRule (stream.next pos).kind = some rule)
    (hkind : kind ∈ rule.closers) : kind ≠ stream.kindAt stop := by
  have hlt := (h.pass hpos (h.next_ne hrule)).2
  have hopener := h.flat _ (TokenStream.get_mem_window h.passes
    (Nat.le_trans hpos.1 (stream.le_significant pos)) hlt (stream.kind_at_significant_ne pos))
  have hstart : (stream.next pos).kind ∈ rule.starts := Grammar.mem_starts hrule
  have hclosers : ∀ rule : PrefixRule, rule.starts ≠ [.letWord] → rule.starts ≠ [.openCurly] →
      ∀ kind ∈ rule.closers, kind ∉ Kind.itemEnds := by
    intro rule
    cases rule <;> decide
  have hnone (opener : Kind) (hmem : opener ∈ [Kind.letWord, .openCurly]) :
      rule.starts ≠ [opener] := by
    intro heq
    rw [heq, List.mem_singleton] at hstart
    exact hopener (hstart ▸ hmem)
  rintro rfl
  exact hclosers rule (hnone _ (by decide)) (hnone _ (by decide)) _ hkind h.closes

/-- No part of a construct passes the token at a barrier. -/
def invariant (h : Barrier stream kinds start stop) : Invariant stream where
  within pos := start ≤ pos ∧ pos ≤ stop
  awaits awaited := stream.kindAt stop ∈ awaited
  made _ := True
  skip hpos := ⟨Nat.le_trans hpos.1 (stream.le_significant _),
    TokenStream.significant_le hpos.2 h.ne_blank⟩
  opens hpos hrule := h.pass hpos (h.next_ne hrule)
  closes hpos hrule hkind _ hpos' heq := h.pass hpos' (heq ▸ h.closer_ne hpos hrule hkind)
  continues := by
    intro pos power rule hpos hrule
    refine h.pass hpos fun heq => ?_
    rw [heq, (Kind.no_rule_of_mem_item_ends _ h.closes).2] at hrule
    cases hrule
  await hawaits _ := List.mem_cons_of_mem _ hawaits
  raises := by
    intro s s' fault _ hpos hawaits hraised
    rw [hraised.pos_eq]
    exact ⟨⟨Nat.le_trans hpos.1 (stream.le_skip_to _ _), TokenStream.skip_to_le hpos.2 hawaits⟩,
      trivial⟩
  leaf _ _ _ := trivial

variable {s : State} {last : Nat} {rest : List Token}

/-- A definition that meets a barrier has read all tokens before it, or has raised a fault that has
led to it, or some of the tokens are left over, and then they overrun a definition. -/
theorem definition_cases (h : Barrier stream (s.awaited.map Awaited.kind) s.pos stop)
    (hs : s.Ready) (hahead : Ahead stream last stop rest) (floor : Power) :
    (∃ item s', definition stream (expression stream .standard (maxNesting - 1)) floor s =
        .ok item s' ∧ Follows stream s s' ∧ Ahead stream last s'.pos rest ∧
          item.Derives (stream.window s.pos stop)) ∨
      (∃ fault s', definition stream (expression stream .standard (maxNesting - 1)) floor s =
        .error fault s' ∧ Unwound stream s fault s' ∧ s'.pos = stop) ∨
      ∃ item s' next w, definition stream (expression stream .standard (maxNesting - 1)) floor s =
        .ok item s' ∧ Follows stream s s' ∧ Ahead stream last s'.pos (next :: (w ++ rest)) ∧
          next :: w <:+ stream.window s.pos stop ∧
          Token.Overruns floor (stream.window s.pos stop) := by
  obtain ⟨-, hidentifier, hequals⟩ := Kind.ne_of_mem_item_ends _ h.closes
  have hbarrier := definition_upholds (expression_upholds h.invariant (maxNesting - 1))
    ⟨by decide, fun hpos heq => h.pass hpos (heq ▸ hidentifier.symm)⟩
    ⟨by decide, fun hpos heq => h.pass hpos (heq ▸ hequals.symm)⟩ floor s
    ⟨hs, ⟨Nat.le_refl _, h.passes.le⟩, h.awaited⟩ trivial
  have hparses {left whole : Nat → Power → Reading Tree} (h : Interpretation .standard left whole) :
      Parses stream (definition stream (expression stream .standard (maxNesting - 1)) floor)
        (Definition (whole (maxNesting - 1) floor)) :=
    definition_parses (expression_parses h (maxNesting - 1)) floor
  have hderives := hparses derives_interpretation s hs
  have hshaped := hparses shaped_interpretation s hs
  have hfinished := hparses finished_interpretation s hs
  cases hcase : definition stream (expression stream .standard (maxNesting - 1)) floor s with
  | ok item s' =>
      rw [hcase] at hbarrier hderives hshaped hfinished
      obtain ⟨hfollows, ⟨-, hle⟩, -⟩ := hbarrier
      have hpasses := h.passes.of_le hfollows.passes.le hle
      have hahead' := hahead.before hpasses
      rw [← TokenStream.window_append hfollows.passes.le hle]
      cases hwindow : stream.window s'.pos stop with
      | nil =>
          rw [hwindow, List.nil_append] at hahead'
          rw [List.append_nil]
          have hitem : recovered .semicolon .fault _ _ item _ _ := .inl hderives.2
          exact .inl ⟨item, s', rfl, hfollows, hahead',
            definition_derives (fun _ _ _ _ => id) hitem⟩
      | cons next w =>
          rw [hwindow, List.cons_append] at hahead'
          refine .inr (.inr ⟨item, s', next, w, rfl, hfollows, hahead', List.suffix_append _ _, ?_⟩)
          rw [← hahead'.of_cons.1]
          exact overruns_of_definition hderives.2 hshaped.2 hfinished.2
  | error fault s' =>
      rw [hcase] at hbarrier
      obtain ⟨hunwound, ⟨-, hle⟩, -⟩ := hbarrier
      exact .inr (.inl ⟨fault, s', rfl, hunwound, hunwound.pos_eq hs h.passes hle h.free⟩)

end Barrier

end Parser

end LetScript
