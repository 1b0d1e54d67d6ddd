import LetScript.Proofs.Parser.Awaiting
import LetScript.Proofs.Parser.Locality

/-!
# Items that go on after their definition

Some tokens before the semicolon of an item are read as a definition, or a fault is raised that has
skipped them, or some of them are left over after a definition that is finished. Which of the three
is the case depends on these tokens only, so `Token.LeavesOver` asks for the third one in a stream
that has no others (`leaves_over_iff`). The semicolon is then expected when the definition has
ceased to wait for it. So the fault that is raised leads to the end of the whole block
(`overrun_item_raises`).

Tokens are left over whenever they go on after a definition without faults, by a token that does not
continue it (`Token.LeavesOver.of_derives`), and never but after a definition that was read to its
end (`Token.LeavesOver.overruns`).
-/

namespace LetScript

/-- A token that was read nowhere. -/
def Token.bare (kind : Kind) (value : String) : Token := ⟨kind, value, .empty .nowhere, false, none⟩

/-- The stream of some tokens with a semicolon after them. -/
def TokenStream.closing (g : List Token) : TokenStream :=
  .ofTokens (g.toArray.push (.bare .semicolon ";"))

/-- The state at the start of a definition in a block. -/
def Parser.State.inBlock (block : Block) : Parser.State where
  awaited := [⟨.semicolon, 0⟩, ⟨block.terminator, 0⟩, ⟨.endOfInput, 0⟩]

/-- Tokens that are not all read as a definition when they stand before the semicolon of an item:
the definition is finished before. -/
def Token.LeavesOver (block : Block) (g : List Token) : Prop :=
  ∃ item s', Parser.definition (.closing g)
      (Parser.expression (.closing g) .standard (maxNesting - 1)) block.power (.inBlock block) =
        .ok item s' ∧
    ((TokenStream.closing g).next s'.pos).kind ≠ .semicolon

namespace Parser

variable {stream : TokenStream} {stop : Nat} {block : Block} {g rest : List Token}
  {semicolon : Token} {s : State}

/-! ## Tokens on their own -/

/-- The tokens and the semicolon are ahead of the start of their stream. -/
theorem closing_ahead (hblank : ∀ token ∈ g, token.kind ≠ .blank)
    (hend : ∀ token ∈ g, token.kind ≠ .endOfInput) :
    ∃ stop, Ahead (.closing g) stop 0 (g ++ [.bare .semicolon ";"]) := by
  obtain ⟨stop, hahead⟩ := TokenStream.ahead_of_tokens (g.toArray.push (.bare .semicolon ";"))
  have hprogram : Token.program (g.toArray.push (.bare .semicolon ";")) =
      g ++ [.bare .semicolon ";"] := by
    unfold Token.program
    rw [Array.toList_push,
      List.takeWhile_append_of_pos fun token h => decide_eq_true (hend token h),
      Token.significant_append, Token.significant,
      List.filter_eq_self.2 fun token h => decide_eq_true (hblank token h)]
    rfl
  rw [hprogram] at hahead
  exact ⟨stop, hahead⟩

/-- Tokens before the semicolon of an item are read in any stream as they are on their own. -/
theorem alike_closing (hs : s.Ready)
    (hkinds : s.awaited.map Awaited.kind = [.semicolon, block.terminator, .endOfInput])
    (hahead : Ahead stream stop s.pos (g ++ semicolon :: rest))
    (hsemicolon : semicolon.kind = .semicolon)
    (hfree : ∀ token ∈ g, token.kind ∉ block.delimiters ++ [.endOfInput]) :
    ∃ m : Settings, m.first = .closing g ∧ m.second = stream ∧ m.Alike (.inBlock block) s := by
  have hblank (token : Token) (htoken : token ∈ g) : token.kind ≠ .blank := by
    have hmem : token ∈ stream.window s.pos stop := by
      rw [hahead.window_eq]
      exact List.mem_append_left _ htoken
    exact of_decide_eq_true (List.mem_filter.1 hmem).2
  obtain ⟨stop', hclosing⟩ := closing_ahead hblank
    fun token htoken heq => hfree token htoken (by simp [heq])
  have hready : (State.inBlock block).Ready := by
    refine ⟨by simp [State.inBlock], ?_, by simp [State.inBlock]⟩
    have hnone := hs.no_blank
    rwa [hkinds] at hnone
  refine ⟨⟨.closing g, stream, stop', stop, .bare .semicolon ";", semicolon, [], rest, hsemicolon,
    by decide⟩, rfl, rfl, hready, hs, hkinds, List.mem_cons_self .., g, ?_, hclosing, hahead⟩
  intro token htoken hmem
  exact hfree token htoken (List.mem_append_left _ (List.mem_append_left _ hmem))

/-- Whether tokens are left over does not depend on the stream in which they stand before a
semicolon. -/
theorem leaves_over_iff (hs : s.Ready)
    (hkinds : s.awaited.map Awaited.kind = [.semicolon, block.terminator, .endOfInput])
    (hahead : Ahead stream stop s.pos (g ++ semicolon :: rest))
    (hsemicolon : semicolon.kind = .semicolon)
    (hfree : ∀ token ∈ g, token.kind ∉ block.delimiters ++ [.endOfInput]) :
    Token.LeavesOver block g ↔ ∃ item s',
      definition stream (expression stream .standard (maxNesting - 1)) block.power s =
        .ok item s' ∧ (stream.next s'.pos).kind ≠ .semicolon := by
  obtain ⟨m, hfirst, rfl, halike⟩ := alike_closing hs hkinds hahead hsemicolon hfree
  have hagree := Settings.definition_agrees (m.expression_agrees (maxNesting - 1)) block.power _ _
    halike trivial
  unfold Token.LeavesOver
  rw [← hfirst]
  cases hcase : definition m.first (expression m.first .standard (maxNesting - 1)) block.power
      (.inBlock block) with
  | ok item s' =>
      rw [hcase] at hagree
      obtain ⟨item', s'', hrun, -, -, -, hpos⟩ := hagree.of_ok
      simp [hrun, hpos.next_kind]
  | error fault s' =>
      rw [hcase] at hagree
      obtain ⟨fault', s'', hrun, -⟩ := hagree.of_error
      simp [hrun]

/-- A definition that waits for its semicolon derives the tokens before it, as a definition or as a
fault that has skipped them, unless some of them are left over. -/
theorem item_cases (hs : s.Ready)
    (hkinds : s.awaited.map Awaited.kind = [block.terminator, .endOfInput])
    (hahead : Ahead stream stop s.pos (g ++ semicolon :: rest))
    (hsemicolon : semicolon.kind = .semicolon)
    (hfree : ∀ token ∈ g, token.kind ∉ block.delimiters ++ [.endOfInput]) :
    (¬ Token.LeavesOver block g ∧ ∃ item s', recovering stream .semicolon .fault
          (definition stream (expression stream .standard (maxNesting - 1)) block.power) s =
        .ok item s' ∧ Follows stream s s' ∧ Ahead stream stop s'.pos (semicolon :: rest) ∧
          item.Derives g) ∨
      (Token.LeavesOver block g ∧ ∃ item s' next w, recovering stream .semicolon .fault
          (definition stream (expression stream .standard (maxNesting - 1)) block.power) s =
        .ok item s' ∧ Follows stream s s' ∧
          Ahead stream stop s'.pos (next :: (w ++ semicolon :: rest)) ∧ next :: w <:+ g ∧
          Token.Overruns block.power g) := by
  have hfree' : ∀ token ∈ g,
      token.kind ∉ [.letWord, .openCurly] ++ .semicolon :: s.awaited.map Awaited.kind := by
    rw [hkinds]
    exact hfree
  obtain ⟨pos', hbarrier, rfl, hkind, hahead'⟩ := hahead.barrier
    (by rw [hsemicolon]; exact List.mem_cons_self ..) (by rw [hsemicolon]; decide) hfree'
  have hready := hs.await (show Kind.semicolon ≠ .blank by decide)
  have hleaves : Token.LeavesOver block (stream.window s.pos pos') ↔ _ :=
    leaves_over_iff hready (congrArg (List.cons _) hkinds) hahead hsemicolon hfree
  rcases hbarrier.definition_cases (s := { s with awaited := _ :: s.awaited }) hready hahead'
    block.power with ⟨item, s', hrun, hfollows, hend, hderives⟩ |
      ⟨fault, s', hrun, hunwound, rfl⟩ |
      ⟨item, s', next, w, hrun, hfollows, hend, hsuffix, hoverruns⟩
  · -- all tokens are read, so the semicolon comes next
    obtain ⟨hrun', hfollows'⟩ := recovering_of_ok Item.fault hrun hfollows
    refine .inl ⟨?_, item, _, hrun', hfollows', hend, hderives⟩
    rw [hleaves, hrun]
    rintro ⟨_, _, heq, hnext⟩
    cases heq
    rw [hend.of_cons.1] at hnext
    exact hnext hsemicolon
  · -- a fault is taken at the semicolon, which is still awaited
    obtain ⟨hresult, hfollows, hskipped⟩ :=
      (recovering_of_error (by decide) Item.fault hs hrun hunwound).1 (hkind.trans hsemicolon)
    refine .inl ⟨?_, .fault fault, s', hresult, hfollows, hahead', ?_⟩
    · rw [hleaves, hrun]
      rintro ⟨_, _, heq, -⟩
      cases heq
    · rw [TokenStream.window, ← hskipped]
      exact .fault
  · -- one of the tokens comes next, and none of them is a semicolon
    obtain ⟨hrun', hfollows'⟩ := recovering_of_ok Item.fault hrun hfollows
    refine .inr ⟨hleaves.2 ⟨item, s', hrun, ?_⟩, item, _, next, w, hrun', hfollows', hend, hsuffix,
      hoverruns⟩
    rw [hend.of_cons.1]
    exact fun heq => hfree next (hsuffix.subset (List.mem_cons_self ..))
      (by simp [heq, Block.delimiters])

/-! ## After a definition -/

/-- Parse what comes after the definition of an item of a block. -/
def itemEnd (stream : TokenStream) (item : Item) : Block → Parse Item
  | .letIn => do
    if (← currentKind stream) ≠ .inWord then
      let _ ← expect stream .semicolon
    return item
  | .record => do
    let _ ← expect stream .semicolon
    return item

/-- An item of a block is a definition that waits for its semicolon, and what comes after it. -/
theorem block_item_eq (stream : TokenStream) (block : Block) :
    blockItem stream block = recovering stream .semicolon .fault
      (definition stream (expression stream .standard (maxNesting - 1)) block.power) >>=
        fun item => itemEnd stream item block := by
  cases block <;> rfl

section Ends

variable {kinds : List Kind} {next closer : Token} {w : List Token}

/-- The semicolon is accepted after a definition. -/
theorem item_end_accepts (hsemicolon : semicolon.kind = .semicolon) (item : Item) :
    AcceptsAwaiting stream stop kinds (itemEnd stream item block) (semicolon :: rest) rest
      (· = item) := by
  have hexpect : AcceptsAwaiting stream stop kinds
      (expect stream .semicolon >>= fun _ => Pure.pure item) (semicolon :: rest) rest (· = item) :=
    ((expect_accepts hsemicolon).awaiting (expect_parses _) kinds).bind fun _ _ => .pure rfl
  cases block with
  | letIn =>
      refine (current_kind_accepts.awaiting current_kind_parses kinds).bind
        fun kind (hkind : kind = semicolon.kind) => ?_
      rw [if_pos (by rw [hkind, hsemicolon]; decide)]
      exact hexpect
  | record => exact hexpect

/-- Any other token than the semicolon raises a fault after a definition, if the block goes on. -/
theorem item_end_raises (hne : next.kind ≠ .semicolon) (hterminator : block.terminator ∈ kinds)
    (hcloser : closer.kind ∈ kinds) (hfree : ∀ token ∈ next :: w, token.kind ∉ kinds)
    (item : Item) :
    RaisesAwaiting stream stop kinds (itemEnd stream item block) (next :: (w ++ closer :: rest))
      (closer :: rest) := by
  have hexpect : RaisesAwaiting stream stop kinds
      (expect stream .semicolon >>= fun _ => Pure.pure item) (next :: (w ++ closer :: rest))
      (closer :: rest) :=
    (RaisesAwaiting.expect hne hcloser hfree).bind
  cases block with
  | letIn =>
      refine .after_accepts (current_kind_accepts.awaiting current_kind_parses kinds)
        fun kind (hkind : kind = next.kind) => ?_
      have hin : kind ≠ .inWord := by
        rw [hkind]
        exact fun heq => hfree next (List.mem_cons_self ..) (heq ▸ hterminator)
      rw [if_pos hin]
      exact hexpect
  | record => exact hexpect

/-- An item is accepted with its semicolon, unless its tokens are left over. -/
theorem replaced_item_accepts (hsemicolon : semicolon.kind = .semicolon)
    (hfree : ∀ token ∈ g, token.kind ∉ block.delimiters ++ [.endOfInput])
    (hleaves : ¬ Token.LeavesOver block g) :
    AcceptsAwaiting stream stop [block.terminator, .endOfInput] (blockItem stream block)
      (g ++ semicolon :: rest) rest (·.Derives g) := by
  have hdefinition : AcceptsAwaiting stream stop [block.terminator, .endOfInput]
      (recovering stream .semicolon .fault
        (definition stream (expression stream .standard (maxNesting - 1)) block.power))
      (g ++ semicolon :: rest) (semicolon :: rest) (·.Derives g) := by
    intro s hs hkinds hahead
    rcases item_cases hs hkinds hahead hsemicolon hfree with ⟨-, haccepts⟩ | ⟨hleft, -⟩
    · exact haccepts
    · exact absurd hleft hleaves
  rw [block_item_eq]
  refine hdefinition.bind fun item hitem => (item_end_accepts hsemicolon item).mono ?_
  rintro _ rfl
  exact hitem

/-- An item that leaves tokens over raises a fault that leads past its semicolon, to the end of the
block. -/
theorem overrun_item_raises {skipped : List Token} (hleaves : Token.LeavesOver block g)
    (hsemicolon : semicolon.kind = .semicolon)
    (hfree : ∀ token ∈ g, token.kind ∉ block.delimiters ++ [.endOfInput])
    (hskipped : ∀ token ∈ semicolon :: skipped, token.kind ∉ [block.terminator, .endOfInput])
    (hcloser : closer.kind = block.terminator) :
    RaisesAwaiting stream stop [block.terminator, .endOfInput] (blockItem stream block)
      ((g ++ semicolon :: skipped) ++ closer :: rest) (closer :: rest) := by
  intro s hs hkinds hahead
  rw [List.append_assoc, List.cons_append] at hahead
  rcases item_cases hs hkinds hahead hsemicolon hfree with
    ⟨hnone, -⟩ | ⟨-, item, s', next, w, hrun, hfollows, hahead', hsuffix, -⟩
  · exact absurd hleaves hnone
  · have hne : next.kind ≠ .semicolon := fun heq =>
      hfree next (hsuffix.subset (List.mem_cons_self ..)) (by simp [heq, Block.delimiters])
    have hleft : ∀ token ∈ next :: (w ++ semicolon :: skipped),
        token.kind ∉ [block.terminator, .endOfInput] := by
      rw [← List.cons_append]
      refine List.forall_mem_append.2 ⟨fun token htoken hmem => ?_, hskipped⟩
      exact hfree token (hsuffix.subset htoken)
        (List.mem_append_right [Kind.letWord, .openCurly, .semicolon] hmem)
    have hrest : next :: (w ++ semicolon :: (skipped ++ closer :: rest)) =
        next :: ((w ++ semicolon :: skipped) ++ closer :: rest) := by simp
    rw [hrest] at hahead'
    have hraises : RaisesAwaiting stream stop [block.terminator, .endOfInput]
        (itemEnd stream item block) _ (closer :: rest) :=
      item_end_raises hne (List.mem_cons_self ..) (hcloser ▸ List.mem_cons_self ..) hleft item
    obtain ⟨fault, s'', hrun', hunwound, hahead''⟩ :=
      hraises s' (hfollows.ready hs) (hfollows.awaited_eq ▸ hkinds) hahead'
    rw [block_item_eq]
    exact ⟨fault, s'', (bind_of_ok hrun).trans hrun', .of_follows hfollows hunwound, hahead''⟩

end Ends

end Parser

namespace Token.LeavesOver

variable {block : Block} {g w rest : List Token} {next : Token} {item : Item}

/-- Tokens are left over only if they overrun a definition. -/
theorem overruns (h : Token.LeavesOver block g) (hblank : ∀ token ∈ g, token.kind ≠ .blank)
    (hfree : ∀ token ∈ g, token.kind ∉ block.delimiters ++ [.endOfInput]) :
    Token.Overruns block.power g := by
  obtain ⟨stop, hahead⟩ := Parser.closing_ahead hblank
    fun token htoken heq => hfree token htoken (by simp [heq])
  have hs := Parser.State.ready_initial.await block.terminator_ne.1
  rcases Parser.item_cases hs rfl hahead rfl hfree with ⟨hnone, -⟩ | ⟨-, _, _, _, _, _, _, _, _, h⟩
  · exact absurd h hnone
  · exact h

/-- Tokens are left over that go on after a definition without faults. -/
theorem of_derives (hderives : item.Derives w) (hitem : item.FaultFree)
    (hregular : item.Regular block.power (maxNesting - 1))
    (hnext : Grammar.standard.infixRule next.kind = none) (hne : next.kind ≠ .semicolon)
    (hblank : ∀ token ∈ w ++ next :: rest, token.kind ≠ .blank)
    (hend : ∀ token ∈ w ++ next :: rest, token.kind ≠ .endOfInput) :
    Token.LeavesOver block (w ++ next :: rest) := by
  obtain ⟨stop, hahead⟩ := Parser.closing_ahead hblank hend
  rw [List.append_assoc, List.cons_append] at hahead
  obtain ⟨found, s', hrun, hahead', -⟩ := Parser.definition_accepts (Parser.expression_accepts _)
    hderives hitem hregular (Token.upcoming_level_of_none hnext) (.inBlock block) hahead
  refine ⟨found, s', hrun, ?_⟩
  rw [hahead'.of_cons.1]
  exact hne

end Token.LeavesOver

end LetScript
