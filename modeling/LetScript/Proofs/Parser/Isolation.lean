import LetScript.Proofs.Parser.Overrun

/-!
# Faulty items and their siblings

If the tokens of an item are replaced by others that neither open nor end an item, then these stand
for one item, a definition or a fault, and its siblings are found as they were. The fault may be
raised anywhere in the item, while different kinds of tokens are awaited, but each time the end of
the item is among them, and it is not passed.

There is one exception. Where tokens are left over after a definition that is finished, the fault is
raised when the semicolon is no longer awaited. It leads to the end of the whole block, and has
skipped the semicolon and the items after it too (`lost_items_accept`). The last item of a let may
have no semicolon, and then there is nothing that could be lost (`last_item_cases`).
`Tree.parse_isolates_item_iff` says that items are isolated in all other cases and in no such case.
-/

namespace LetScript

/-! ## Places for items -/

/-- The items of a let after another one, with the semicolon before them. -/
inductive Item.LetTail : List Item → List Token → Prop
  | none : Item.LetTail [] []
  | more {items : List Item} {semicolon : Token} {w : List Token} :
      semicolon.kind = .semicolon → Item.LetDerives items w → Item.LetTail items (semicolon :: w)

/-- A place for an item in a program that is a block and otherwise as the grammar prescribes: the
tree with an item in the place, and the tokens before and after the place. -/
inductive Item.Place : Block → (Item → Tree) → List Token → List Token → Prop
  | letIn {id : NodeId} {letToken inToken : Token} {before after : List Item} {body : Tree}
      {w rest w' : List Token} :
      letToken.kind = .letWord → Item.RecordDerives before w → Item.LetTail after rest →
      inToken.kind = .inWord → body.Derives w' →
      (Tree.letIn id letToken (before ++ after) inToken body).FaultFree →
      (Tree.letIn id letToken (before ++ after) inToken body).Regular maxNesting →
      Item.Place .letIn (fun item => .letIn id letToken (before ++ item :: after) inToken body)
        (letToken :: w) (rest ++ inToken :: w')
  | record {id : NodeId} {opener semicolon closer : Token} {before after : List Item}
      {w w' : List Token} :
      opener.kind = .openCurly → Item.RecordDerives before w → semicolon.kind = .semicolon →
      Item.RecordDerives after w' → closer.kind = .closeCurly →
      (Tree.record id opener (before ++ after) closer).FaultFree →
      (Tree.record id opener (before ++ after) closer).Regular maxNesting →
      Item.Place .record (fun item => .record id opener (before ++ item :: after) closer)
        (opener :: w) (semicolon :: (w' ++ [closer]))

/-- What overruns a definition has its name, its equals sign and another token. -/
theorem Token.Overruns.length_gt {floor : Power} {g : List Token} (h : Token.Overruns floor g) :
    2 < g.length := by
  obtain ⟨hderives, -, -, -, -⟩ := h
  cases hderives with
  | definition =>
      simp only [List.cons_append, List.length_cons, List.length_append]
      omega

/-- The end of input is not among the tokens of a program. -/
theorem Token.kind_ne_end_of_program {tokens : Array Token} {token : Token}
    (h : token ∈ Token.program tokens) : token.kind ≠ .endOfInput :=
  of_decide_eq_true (List.all_eq_true.1 List.all_takeWhile token (List.mem_filter.1 h).1)

/-- Tokens of an item do not start with the end of its block. -/
theorem Block.upcoming_ne {block : Block} {g : List Token} (hg : g ≠ [])
    (hfree : ∀ token ∈ g, token.kind ∉ block.delimiters ++ [.endOfInput]) (rest : List Token) :
    Token.upcoming (g ++ rest) ≠ block.terminator := by
  cases g with
  | nil => exact absurd rfl hg
  | cons token g =>
      refine fun heq => hfree token (List.mem_cons_self ..) ?_
      have hkind : token.kind = block.terminator := heq
      simp [hkind, Block.delimiters]

/-- The first token of a kind comes after tokens of other kinds. -/
theorem Token.exists_first {tokens : List Token} {kind : Kind}
    (h : ∃ token ∈ tokens, token.kind = kind) :
    ∃ w token rest, tokens = w ++ token :: rest ∧ token.kind = kind ∧
      ∀ other ∈ w, other.kind ≠ kind := by
  obtain ⟨token, hfind⟩ := Option.isSome_iff_exists.1 (List.find?_isSome.2
    (h.imp fun token h => ⟨h.1, decide_eq_true h.2⟩))
  obtain ⟨hkind, w, rest, rfl, hw⟩ := List.find?_eq_some_iff_append.1 hfind
  exact ⟨w, token, rest, rfl, of_decide_eq_true hkind, by simpa using hw⟩

/-- A fault in the place of an item that stands for some tokens has skipped exactly them. -/
theorem Item.Derives.significant_of_fault {item : Item} {fault : Fault} {g : List Token}
    (hitem : item.Derives g) (h : item.withoutIds = (Item.fault fault).withoutIds) :
    Token.significant fault.skipped = g := by
  cases hitem with
  | definition => cases h
  | fault =>
      have hfault := Item.fault.inj h
      exact congrArg (fun fault => Token.significant fault.skipped) hfault.symm

/-- Lets have the same shape if their parts have. -/
theorem Tree.same_shape_let_in {id id' : NodeId} {letToken letToken' inToken inToken' : Token}
    {items items' : List Item} {body body' : Tree} :
    (Tree.letIn id letToken items inToken body).SameShape
        (.letIn id' letToken' items' inToken' body') ↔
      letToken = letToken' ∧ items.map Item.withoutIds = items'.map Item.withoutIds ∧
        inToken = inToken' ∧ body.SameShape body' := by
  simp only [Tree.SameShape, Tree.withoutIds, Item.list_without_ids, Tree.letIn.injEq, true_and]

/-- Records have the same shape if their parts have. -/
theorem Tree.same_shape_record {id id' : NodeId} {opener opener' closer closer' : Token}
    {items items' : List Item} :
    (Tree.record id opener items closer).SameShape (.record id' opener' items' closer') ↔
      opener = opener' ∧ items.map Item.withoutIds = items'.map Item.withoutIds ∧
        closer = closer' := by
  simp only [Tree.SameShape, Tree.withoutIds, Item.list_without_ids, Tree.record.injEq, true_and]

namespace Parser

variable {stream : TokenStream} {stop : Nat} {kinds : List Kind}

/-! ## The last item of a let -/

section Last

variable {g rest : List Token} {inToken : Token}

/-- After the last item of a let no semicolon is expected. -/
theorem last_item_end_accepts (hin : inToken.kind = .inWord) (item : Item) :
    AcceptsAwaiting stream stop kinds (itemEnd stream item .letIn) (inToken :: rest)
      (inToken :: rest) (· = item) := by
  refine (current_kind_accepts.awaiting current_kind_parses kinds).bind fun kind hkind => ?_
  have heq : kind = .inWord := hkind.trans hin
  rw [if_neg (not_not_intro heq)]
  exact .pure rfl

/-- The last item of a let derives the tokens before `in`, or it raises a fault that leads there. It
does not matter whether tokens are left over. -/
theorem last_item_cases (hin : inToken.kind = .inWord) {s : State} (hs : s.Ready)
    (hmem : .inWord ∈ s.awaited.map Awaited.kind)
    (hahead : Ahead stream stop s.pos (g ++ inToken :: rest))
    (hfree : ∀ token ∈ g,
      token.kind ∉ [.letWord, .openCurly] ++ .semicolon :: s.awaited.map Awaited.kind) :
    (∃ item s', blockItem stream .letIn s = .ok item s' ∧ Follows stream s s' ∧
        Ahead stream stop s'.pos (inToken :: rest) ∧ item.Derives g) ∨
      ∃ fault s', blockItem stream .letIn s = .error fault s' ∧ Unwound stream s fault s' ∧
        Ahead stream stop s'.pos (inToken :: rest) := by
  obtain ⟨pos', hbarrier, rfl, hkind, hahead'⟩ := hahead.barrier
    (List.mem_cons_of_mem _ (hin ▸ hmem)) (by rw [hin]; decide) hfree
  have hready := hs.await (show Kind.semicolon ≠ .blank by decide)
  rw [block_item_eq]
  rcases Barrier.definition_cases (s := { s with awaited := ⟨.semicolon, s.pos⟩ :: s.awaited })
    hbarrier hready hahead' .letIn with ⟨item, s', hrun, hfollows, hend, hderives⟩ |
      ⟨fault, s', hrun, hunwound, rfl⟩ | ⟨item, s', next, w, hrun, hfollows, hend, hsuffix, -⟩
  · obtain ⟨hrun', hfollows'⟩ := recovering_of_ok Item.fault hrun hfollows
    obtain ⟨found, s'', hrest, hfollows'', hend', rfl⟩ :=
      last_item_end_accepts hin item _ (hfollows'.ready hs) rfl hend
    exact .inl ⟨found, s'', (bind_of_ok hrun').trans hrest, hfollows'.trans hfollows'', hend',
      hderives⟩
  · -- the fault leads to `in`, so it is raised past the part that waits for the semicolon
    have hne : stream.kindAt s'.pos ≠ .semicolon := by
      rw [hkind, hin]
      decide
    obtain ⟨hrun', hunwound'⟩ :=
      (recovering_of_error (by decide) Item.fault hs hrun hunwound).2 hne
    exact .inr ⟨fault, s', bind_of_error hrun', hunwound', hahead'⟩
  · -- the semicolon is expected at a token that is left over, and this fault leads to `in` too
    obtain ⟨hrun', hfollows'⟩ := recovering_of_ok Item.fault hrun hfollows
    have hleft (token : Token) (htoken : token ∈ next :: w) :
        token.kind ∉ .semicolon :: s.awaited.map Awaited.kind := fun hmem =>
      hfree token (hsuffix.subset htoken) (List.mem_append_right _ hmem)
    have hne : next.kind ≠ .semicolon := fun heq =>
      hleft next (List.mem_cons_self ..) (heq ▸ List.mem_cons_self ..)
    have hraises : RaisesAwaiting stream stop (s.awaited.map Awaited.kind)
        (itemEnd stream item .letIn) _ (inToken :: rest) :=
      item_end_raises hne hmem (hin ▸ hmem)
        (fun token htoken hmem => hleft token htoken (List.mem_cons_of_mem _ hmem)) item
    obtain ⟨fault, s'', hrun'', hunwound, hend'⟩ :=
      hraises _ (hfollows'.ready hs) (congrArg _ hfollows'.awaited_eq) hend
    exact .inr ⟨fault, s'', (bind_of_ok hrun').trans hrun'', .of_follows hfollows' hunwound, hend'⟩

/-- Tokens before `in` are taken as the last item of a let. -/
theorem replaced_last_item_accepts (hin : inToken.kind = .inWord)
    (hfree : ∀ token ∈ g, token.kind ∉ Block.letIn.delimiters ++ [.endOfInput]) :
    AcceptsAwaiting stream stop [.endOfInput]
      (recovering stream .inWord .fault (blockItem stream .letIn)) (g ++ inToken :: rest)
      (inToken :: rest) (·.Derives g) := by
  intro s hs hkinds hahead
  have hblank : Kind.inWord ≠ .blank := by decide
  have hcases := last_item_cases (s := { s with awaited := ⟨.inWord, s.pos⟩ :: s.awaited }) hin
    (hs.await hblank) (List.mem_cons_self ..) hahead
    (by rw [List.map_cons, hkinds]; exact hfree)
  rcases hcases with ⟨item, s', hrun, hfollows, hend, hderives⟩ |
    ⟨fault, s', hrun, hunwound, hend⟩
  · obtain ⟨hrun', hfollows'⟩ := recovering_of_ok Item.fault hrun hfollows
    exact ⟨item, _, hrun', hfollows', hend, hderives⟩
  · obtain ⟨hrun', hfollows', rfl⟩ :=
      recovering_takes hblank Item.fault hin hs hahead hrun hunwound hend
    exact ⟨.fault fault, s', hrun', hfollows', hend, .fault⟩

end Last

/-! ## A replaced item among others -/

section Replaced

variable (block : Block) {before after : List Item} {w g rest last : List Token} {semicolon : Token}

/-- Tokens before a semicolon stand for one item, unless some are left over, and the items around it
are found as they are. -/
theorem replaced_items_accept (hbefore : Item.RecordDerives before w)
    (hbeforeFree : ∀ item ∈ before, item.FaultFree)
    (hregular : ∀ item ∈ before, item.Regular block.power (maxNesting - 1)) (hg : g ≠ [])
    (hfree : ∀ token ∈ g, token.kind ∉ block.delimiters ++ [.endOfInput])
    (hleaves : ¬ Token.LeavesOver block g) (hsemicolon : semicolon.kind = .semicolon)
    (hafter : Series stream stop block.terminator (blockItem stream block) Item.withoutIds after
      rest last) :
    AcceptsAwaiting stream stop [.endOfInput]
      (itemsUntil stream block.terminator .fault (blockItem stream block) [])
      (w ++ (g ++ semicolon :: rest)) last fun found => ∃ item : Item, item.Derives g ∧
        found.map Item.withoutIds = (before ++ item :: after).map Item.withoutIds := by
  refine items_around_accept block hbefore hbeforeFree hregular
    (Block.upcoming_ne hg hfree _) (.recovering block.terminator_ne.1 _
      (replaced_item_accepts hsemicolon hfree hleaves)) ?_ hafter
  simp only [List.length_append, List.length_cons]
  omega

/-- If some of the tokens before a semicolon are left over, then the items after it are lost. A
fault has skipped them with the semicolon, up to the first token that could end the block. -/
theorem lost_items_accept (hbefore : Item.RecordDerives before w)
    (hbeforeFree : ∀ item ∈ before, item.FaultFree)
    (hregular : ∀ item ∈ before, item.Regular block.power (maxNesting - 1)) (hg : g ≠ [])
    (hfree : ∀ token ∈ g, token.kind ∉ block.delimiters ++ [.endOfInput])
    (hleaves : Token.LeavesOver block g) (hsemicolon : semicolon.kind = .semicolon)
    (hrest : ∀ token ∈ rest, token.kind ≠ .endOfInput)
    (hend : ∃ token ∈ rest, token.kind = block.terminator) :
    ∃ last, AcceptsAwaiting stream stop [.endOfInput]
      (itemsUntil stream block.terminator .fault (blockItem stream block) [])
      (w ++ (g ++ semicolon :: rest)) last fun found => ∃ (fault : Fault) (skipped : List Token),
        Token.significant fault.skipped = g ++ semicolon :: skipped ∧
          found.map Item.withoutIds = (before ++ [Item.fault fault]).map Item.withoutIds := by
  obtain ⟨skipped, closer, rest, rfl, hcloser, hskipped⟩ := Token.exists_first hend
  have hskipped' : ∀ token ∈ semicolon :: skipped,
      token.kind ∉ [block.terminator, .endOfInput] := by
    refine List.forall_mem_cons.2 ⟨?_, fun token htoken => ?_⟩
    · simp [hsemicolon, block.terminator_ne.2.2]
    · simp [hskipped token htoken, hrest token (List.mem_append_left _ htoken)]
  have hraises : RaisesAwaiting stream stop [block.terminator, .endOfInput] (blockItem stream block)
      ((g ++ semicolon :: skipped) ++ closer :: rest) (closer :: rest) :=
    overrun_item_raises hleaves hsemicolon hfree hskipped' hcloser
  refine ⟨closer :: rest, ?_⟩
  rw [← List.cons_append, ← List.append_assoc g]
  refine (items_around_accept block hbefore hbeforeFree hregular ?_
    (hraises.recovering block.terminator_ne.1 Item.fault hcloser) ?_ (.done hcloser)).mono ?_
  · rw [List.append_assoc]
    exact Block.upcoming_ne hg hfree _
  · simp only [List.length_append, List.length_cons]
    omega
  · rintro found ⟨_, ⟨fault, rfl, hfault⟩, hfound⟩
    exact ⟨fault, skipped, hfault, hfound⟩

end Replaced

/-! ## Programs that are blocks -/

section Programs

variable {w last : List Token} {R : List Item → Prop} (id : NodeId)

/-- A program is accepted that is a let, if its items are accepted with a property. -/
theorem let_program_accepts {letToken inToken : Token} {body : Tree} {w' : List Token}
    (hlet : letToken.kind = .letWord) (hin : inToken.kind = .inWord) (hbody : body.Derives w')
    (hfree : body.FaultFree) (hhead : Power.letIn.rank < body.head)
    (hregular : body.Regular (maxNesting - 1))
    (hitems : AcceptsAwaiting stream stop kinds
      (itemsUntil stream .inWord .fault (blockItem stream .letIn) []) w (inToken :: w') R) :
    AcceptsAwaiting stream stop kinds (program stream .standard) (letToken :: w) []
      fun tree => ∃ items, R items ∧ tree.SameShape (.letIn id letToken items inToken body) := by
  have hvalue : Accepts stream stop (expression stream .standard (maxNesting - 1) .letIn) (w' ++ [])
      [] (·.SameShape body) :=
    (expression_accepts _).before_end hbody hfree hregular hhead rfl
  rw [List.append_nil] at hvalue
  have hrule : Grammar.standard.prefixRule letToken.kind = some .letIn := by
    rw [hlet]
    rfl
  refine program_start_accepts hrule ?_
  refine (advance_accepts.awaiting advance_parses kinds).bind fun letToken hlet => ?_
  refine hitems.bind fun items hitems => ?_
  refine ((expect_accepts hin).awaiting (expect_parses _) kinds).bind fun inToken hin => ?_
  refine (hvalue.awaiting (operand_parses _ _) kinds).bind fun body hbody => ?_
  exact (Accepts.node fun id => ⟨items, hitems,
    Tree.same_shape_let_in.2 ⟨hlet, rfl, hin, hbody⟩⟩).awaiting (node_parses _) kinds

/-- A program is accepted that is a record, if its items are accepted with a property. -/
theorem record_program_accepts {opener closer : Token} (hopener : opener.kind = .openCurly)
    (hcloser : closer.kind = .closeCurly)
    (hitems : AcceptsAwaiting stream stop kinds
      (itemsUntil stream .closeCurly .fault (blockItem stream .record) []) w [closer] R) :
    AcceptsAwaiting stream stop kinds (program stream .standard) (opener :: w) []
      fun tree => ∃ items, R items ∧ tree.SameShape (.record id opener items closer) := by
  have hrule : Grammar.standard.prefixRule opener.kind = some .record := by
    rw [hopener]
    rfl
  refine program_start_accepts hrule ?_
  refine (advance_accepts.awaiting advance_parses kinds).bind fun opener hopener => ?_
  refine hitems.bind fun items hitems => ?_
  refine ((expect_accepts hcloser).awaiting (expect_parses _) kinds).bind fun closer hcloser => ?_
  exact (Accepts.node fun id => ⟨items, hitems,
    Tree.same_shape_record.2 ⟨hopener, rfl, hcloser⟩⟩).awaiting (node_parses _) kinds

variable {P : Tree → Prop}

/-- A program that is a let has the items that are accepted, whatever comes after them. -/
theorem let_program_gives {letToken : Token} (hlet : letToken.kind = .letWord)
    (hitems : AcceptsAwaiting stream stop kinds
      (itemsUntil stream .inWord .fault (blockItem stream .letIn) []) w last R)
    (hP : ∀ id letToken items inToken body, R items → P (.letIn id letToken items inToken body))
    (hattach : ∀ left continuation, P (Continuation.attach left continuation)) :
    GivesAwaiting stream stop kinds (program stream .standard) (letToken :: w) P := by
  have hrule : Grammar.standard.prefixRule letToken.kind = some .letIn := by
    rw [hlet]
    rfl
  refine program_start_gives hrule ?_ hattach
  refine .after_accepts (advance_accepts.awaiting advance_parses kinds) fun letToken _ => ?_
  refine .after_accepts hitems fun items hitems => Gives.awaiting ?_ last
  exact .bind fun inToken => .bind fun body => .node fun id =>
    hP id letToken items inToken body hitems

/-- A program that is a record has the items that are accepted, whatever comes after them. -/
theorem record_program_gives {opener : Token} (hopener : opener.kind = .openCurly)
    (hitems : AcceptsAwaiting stream stop kinds
      (itemsUntil stream .closeCurly .fault (blockItem stream .record) []) w last R)
    (hP : ∀ id opener items closer, R items → P (.record id opener items closer))
    (hattach : ∀ left continuation, P (Continuation.attach left continuation)) :
    GivesAwaiting stream stop kinds (program stream .standard) (opener :: w) P := by
  have hrule : Grammar.standard.prefixRule opener.kind = some .record := by
    rw [hopener]
    rfl
  refine program_start_gives hrule ?_ hattach
  refine .after_accepts (advance_accepts.awaiting advance_parses kinds) fun opener _ => ?_
  refine .after_accepts hitems fun items hitems => Gives.awaiting ?_ last
  exact .bind fun closer => .node fun id => hP id opener items closer hitems

end Programs

/-! ## Isolated and lost items -/

section Places

variable {block : Block} {tree : Item → Tree} {front back g : List Token}

/-- Tokens in the place of an item stand for one item, unless some of them are left over before a
semicolon. -/
theorem place_accepts (hplace : Item.Place block tree front back) (hg : g ≠ [])
    (hfree : ∀ token ∈ g, token.kind ∉ block.delimiters ++ [.endOfInput])
    (hleaves : ¬ (Token.upcoming back = .semicolon ∧ Token.LeavesOver block g)) :
    AcceptsAwaiting stream stop [.endOfInput] (program stream .standard) (front ++ (g ++ back)) []
      fun found => ∃ item, item.Derives g ∧ found.SameShape (tree item) := by
  cases hplace with
  | @letIn id letToken inToken before after body w rest w' hlet hbefore hafter hin hbody htreeFree
      hregular =>
      obtain ⟨hitemsFree, hbodyFree⟩ := Tree.fault_free_let_in.1 htreeFree
      obtain ⟨hitemsRegular, hhead, hbodyRegular⟩ := Tree.regular_let_in.1 hregular
      obtain ⟨hbeforeFree, hafterFree⟩ := List.forall_mem_append.1 hitemsFree
      obtain ⟨hbeforeRegular, hafterRegular⟩ := List.forall_mem_append.1 hitemsRegular
      have hitems : AcceptsAwaiting stream stop [.endOfInput]
          (itemsUntil stream .inWord .fault (blockItem stream .letIn) [])
          (w ++ (g ++ (rest ++ inToken :: w'))) (inToken :: w')
          fun found => ∃ item : Item, item.Derives g ∧
            found.map Item.withoutIds = (before ++ item :: after).map Item.withoutIds := by
        cases hafter with
        | none =>
            have hlength := List.length_pos_iff.2 hg
            exact items_around_accept .letIn hbefore hbeforeFree hbeforeRegular
              (Block.upcoming_ne hg hfree _) (replaced_last_item_accepts hin hfree) (by simpa)
              (.done hin)
        | more hsemicolon hitems =>
            exact replaced_items_accept .letIn hbefore hbeforeFree hbeforeRegular hg hfree
              (fun hleft => hleaves ⟨hsemicolon, hleft⟩) hsemicolon
              (let_items_accept (expression_accepts _) hitems hafterFree hafterRegular hin)
      refine (let_program_accepts id hlet hin hbody hbodyFree hhead hbodyRegular hitems).mono ?_
      rintro found ⟨items, ⟨item, hitem, hitems⟩, hfound⟩
      exact ⟨item, hitem, hfound.trans (Tree.same_shape_let_in.2 ⟨rfl, hitems, rfl, rfl⟩)⟩
  | @record id opener semicolon closer before after w w' hopener hbefore hsemicolon hitems hcloser
      htreeFree hregular =>
      obtain ⟨hbeforeFree, hafterFree⟩ :=
        List.forall_mem_append.1 (Tree.fault_free_record.1 htreeFree)
      obtain ⟨hbeforeRegular, hafterRegular⟩ :=
        List.forall_mem_append.1 (Tree.regular_record.1 hregular)
      have hafter : Series stream stop .closeCurly (blockItem stream .record) _ after _ [closer] :=
        record_items_accept (expression_accepts _) hitems hafterFree hafterRegular hcloser
      refine (record_program_accepts id hopener hcloser (replaced_items_accept .record hbefore
        hbeforeFree hbeforeRegular hg hfree (fun hleft => hleaves ⟨hsemicolon, hleft⟩) hsemicolon
        hafter)).mono ?_
      rintro found ⟨items, ⟨item, hitem, hitems⟩, hfound⟩
      exact ⟨item, hitem, hfound.trans (Tree.same_shape_record.2 ⟨rfl, hitems, rfl⟩)⟩

/-- A fault that has skipped more than the tokens of an item is not in its place. -/
theorem lost_items_ne {before after items : List Item} {item : Item} {semicolon : Token}
    (hlost : ∃ (fault : Fault) (skipped : List Token),
      Token.significant fault.skipped = g ++ semicolon :: skipped ∧
        items.map Item.withoutIds = (before ++ [Item.fault fault]).map Item.withoutIds)
    (hitem : item.Derives g) :
    items.map Item.withoutIds ≠ (before ++ item :: after).map Item.withoutIds := by
  obtain ⟨fault, skipped, hfault, hitems⟩ := hlost
  intro heq
  rw [hitems, List.map_append, List.map_append] at heq
  obtain ⟨hfirst, -⟩ := List.cons.inj (List.append_cancel_left heq)
  have hlength := congrArg List.length (hfault.symm.trans (hitem.significant_of_fault hfirst.symm))
  simp at hlength

/-- If tokens in the place of an item are left over before a semicolon, then they do not stand for
one item with the others around it. -/
theorem place_gives (hplace : Item.Place block tree front back) (hg : g ≠ [])
    (hfree : ∀ token ∈ g, token.kind ∉ block.delimiters ++ [.endOfInput])
    (hback : ∀ token ∈ back, token.kind ≠ .endOfInput) (hnext : Token.upcoming back = .semicolon)
    (hleaves : Token.LeavesOver block g) :
    GivesAwaiting stream stop [.endOfInput] (program stream .standard) (front ++ (g ++ back))
      fun found => ∀ item : Item, item.Derives g → ¬ found.SameShape (tree item) := by
  cases hplace with
  | @letIn id letToken inToken before after body w rest w' hlet hbefore hafter hin hbody htreeFree
      hregular =>
      obtain ⟨hbeforeFree, -⟩ := List.forall_mem_append.1 (Tree.fault_free_let_in.1 htreeFree).1
      obtain ⟨hbeforeRegular, -⟩ := List.forall_mem_append.1 (Tree.regular_let_in.1 hregular).1
      cases hafter with
      | none =>
          have hkind : inToken.kind = .semicolon := hnext
          rw [hin] at hkind
          cases hkind
      | more hsemicolon hitems =>
          obtain ⟨last, hitems⟩ := lost_items_accept .letIn hbefore hbeforeFree hbeforeRegular hg
            hfree hleaves hsemicolon (List.forall_mem_cons.1 hback).2
            ⟨inToken, List.mem_append_right _ (List.mem_cons_self ..), hin⟩
          refine let_program_gives hlet hitems ?_ ?_
          · intro _ _ items _ _ hlost item hitem hshape
            exact lost_items_ne hlost hitem (Tree.same_shape_let_in.1 hshape).2.1
          · rintro left (_ | _) item - ⟨⟩
  | @record id opener semicolon closer before after w w' hopener hbefore hsemicolon hitems hcloser
      htreeFree hregular =>
      obtain ⟨hbeforeFree, -⟩ := List.forall_mem_append.1 (Tree.fault_free_record.1 htreeFree)
      obtain ⟨hbeforeRegular, -⟩ := List.forall_mem_append.1 (Tree.regular_record.1 hregular)
      obtain ⟨last, hitems⟩ := lost_items_accept .record hbefore hbeforeFree hbeforeRegular hg
        hfree hleaves hsemicolon (List.forall_mem_cons.1 hback).2
        ⟨closer, List.mem_append_right w' (List.mem_singleton_self closer), hcloser⟩
      refine record_program_gives hopener hitems ?_ ?_
      · intro _ _ items _ hlost item hitem hshape
        exact lost_items_ne hlost hitem (Tree.same_shape_record.1 hshape).2.1
      · rintro left (_ | _) item - ⟨⟩

end Places

end Parser

/-! ## Small programs -/

/-- The definition of a name by another one. -/
def Item.renaming (name value : String) : Item :=
  .definition 0 (.bare .identifier name) (.bare .equals "=")
    (.identifier 0 (.bare .identifier value))

/-- The definition of a name by another one has three tokens. -/
theorem Item.renaming_derives (name value : String) : (Item.renaming name value).Derives
    [.bare .identifier name, .bare .equals "=", .bare .identifier value] :=
  .definition rfl rfl (.identifier rfl)

@[simp] theorem Item.renaming_fault_free (name value : String) :
    (Item.renaming name value).FaultFree :=
  Tree.fault_free_identifier

@[simp] theorem Item.renaming_regular (power : Power) (room : Nat) (name value : String) :
    (Item.renaming name value).Regular power (room + 1) :=
  ⟨WithTop.coe_lt_top _, Tree.regular_identifier⟩

namespace Tree

section Isolation

variable {tokens : Array Token} {block : Block} {tree : Item → Tree} {front back g : List Token}
  (hplace : Item.Place block tree front back) (hg : g ≠ [])
  (hkinds : ∀ token ∈ g, token.kind ∉ block.delimiters)
  (htokens : Token.program tokens = front ++ (g ++ back))

include hplace hg hkinds htokens

omit hplace hg in
/-- Neither is the end of input among the tokens of an item nor after them. -/
theorem kinds_of_program : (∀ token ∈ g, token.kind ∉ block.delimiters ++ [.endOfInput]) ∧
    ∀ token ∈ back, token.kind ≠ .endOfInput := by
  have hprogram : ∀ token ∈ g ++ back, token.kind ≠ .endOfInput := by
    intro token htoken
    have hmem : token ∈ Token.program tokens := htokens ▸ List.mem_append_right _ htoken
    exact Token.kind_ne_end_of_program hmem
  obtain ⟨hitem, hback⟩ := List.forall_mem_append.1 hprogram
  refine ⟨fun token htoken hmem => ?_, hback⟩
  rcases List.mem_append.1 hmem with hmem | hmem
  · exact hkinds token htoken hmem
  · exact hitem token htoken (List.mem_singleton.1 hmem)

/-- An item whose tokens were replaced is isolated, unless some of them are left over before a
semicolon. -/
theorem parse_isolates_item
    (hleaves : ¬ (Token.upcoming back = .semicolon ∧ Token.LeavesOver block g)) :
    ∃ item : Item, item.Derives g ∧ (Tree.parse tokens).SameShape (tree item) := by
  obtain ⟨hfree, -⟩ := kinds_of_program hkinds htokens
  refine Tree.parse_of_accepts (Q := fun found => ∃ item : Item, item.Derives g ∧
    found.SameShape (tree item)) fun stop => ?_
  rw [htokens]
  exact Parser.place_accepts hplace hg hfree hleaves

/-- An item whose tokens were replaced is not isolated, if some of them are left over before a
semicolon. -/
theorem parse_loses_item (hnext : Token.upcoming back = .semicolon)
    (hleaves : Token.LeavesOver block g) :
    ¬ ∃ item : Item, item.Derives g ∧ (Tree.parse tokens).SameShape (tree item) := by
  obtain ⟨hfree, hback⟩ := kinds_of_program hkinds htokens
  have hlost : ∀ item : Item, item.Derives g → ¬ (Tree.parse tokens).SameShape (tree item) := by
    refine Tree.parse_of_gives (Q := fun found => ∀ item : Item, item.Derives g →
      ¬ found.SameShape (tree item)) (fun stop => ?_) fun fault item _ hfault => ?_
    · rw [htokens]
      exact Parser.place_gives hplace hg hfree hback hnext hleaves
    · cases hplace <;> cases hfault
  rintro ⟨item, hitem, hshape⟩
  exact hlost item hitem hshape

end Isolation

/-- An item of a block whose tokens were replaced is isolated: the program is parsed with one item
in its place, which is a definition that the tokens derive or a fault that has skipped exactly them,
and all other parts are as they were. The only exception is that a semicolon comes after the tokens
and some of them are left over after a definition, and then the item is never isolated. -/
theorem parse_isolates_item_iff {tokens : Array Token} {block : Block} {tree : Item → Tree}
    {front back g : List Token} (hplace : Item.Place block tree front back) (hg : g ≠ [])
    (hkinds : ∀ token ∈ g, token.kind ∉ block.delimiters)
    (htokens : Token.program tokens = front ++ (g ++ back)) :
    (∃ item : Item, item.Derives g ∧ (Tree.parse tokens).SameShape (tree item)) ↔
      ¬ (Token.upcoming back = .semicolon ∧ Token.LeavesOver block g) := by
  constructor
  · rintro hisolated ⟨hnext, hleaves⟩
    exact parse_loses_item hplace hg hkinds htokens hnext hleaves hisolated
  · exact parse_isolates_item hplace hg hkinds htokens

/-- In `let a = x; b = ; c = y in c` the second definition lacks its value, and the other two are
found. -/
theorem parse_isolates_missing_value :
    ∃ item : Item, item.Derives [.bare .identifier "b", .bare .equals "="] ∧
      (Tree.parse #[.bare .letWord "let", .bare .identifier "a", .bare .equals "=",
        .bare .identifier "x", .bare .semicolon ";", .bare .identifier "b", .bare .equals "=",
        .bare .semicolon ";", .bare .identifier "c", .bare .equals "=", .bare .identifier "y",
        .bare .inWord "in", .bare .identifier "c"]).SameShape
        (.letIn 0 (.bare .letWord "let") [.renaming "a" "x", item, .renaming "c" "y"]
          (.bare .inWord "in") (.identifier 0 (.bare .identifier "c"))) := by
  have hbefore : Item.RecordDerives [.renaming "a" "x"] (_ ++ .bare .semicolon ";" :: []) :=
    .cons (Item.renaming_derives "a" "x") rfl .nil
  have hafter : Item.LetTail [.renaming "c" "y"] (.bare .semicolon ";" :: _) :=
    .more rfl (.last (Item.renaming_derives "c" "y"))
  have hplace : Item.Place .letIn (fun item => .letIn 0 (.bare .letWord "let")
      ([.renaming "a" "x"] ++ item :: [.renaming "c" "y"]) (.bare .inWord "in")
      (.identifier 0 (.bare .identifier "c"))) _ _ :=
    .letIn rfl hbefore hafter rfl (.identifier rfl) (by simp)
      (Tree.regular_let_in.2 ⟨by simp, WithTop.coe_lt_top _, Tree.regular_identifier⟩)
  refine (parse_isolates_item_iff hplace (List.cons_ne_nil _ _) (by decide) rfl).2 ?_
  rintro ⟨-, hleaves⟩
  exact absurd (hleaves.overruns (by decide) (by decide)).length_gt (by decide)

/-- The tokens of `let a = x ); b = y in b`. -/
def overrunProgram : Array Token :=
  #[.bare .letWord "let", .bare .identifier "a", .bare .equals "=", .bare .identifier "x",
    .bare .closeParen ")", .bare .semicolon ";", .bare .identifier "b", .bare .equals "=",
    .bare .identifier "y", .bare .inWord "in", .bare .identifier "b"]

/-- Not every item whose tokens were replaced is isolated. In `let a = x ); b = y in b` only the
first definition is faulty, but the second one is not an item of the let either. -/
theorem overrun_item_not_isolated :
    ¬ ∀ (tokens : Array Token) (block : Block) (tree : Item → Tree) (front back g : List Token),
      Item.Place block tree front back → g ≠ [] → (∀ token ∈ g, token.kind ∉ block.delimiters) →
      Token.program tokens = front ++ (g ++ back) →
      ∃ item : Item, item.Derives g ∧ (Tree.parse tokens).SameShape (tree item) := by
  intro hisolates
  have hafter : Item.LetTail [.renaming "b" "y"] (.bare .semicolon ";" :: _) :=
    .more rfl (.last (Item.renaming_derives "b" "y"))
  have hplace : Item.Place .letIn (fun item => .letIn 0 (.bare .letWord "let")
      ([] ++ item :: [.renaming "b" "y"]) (.bare .inWord "in")
      (.identifier 0 (.bare .identifier "b"))) _ _ :=
    .letIn rfl .nil hafter rfl (.identifier rfl) (by simp)
      (Tree.regular_let_in.2 ⟨by simp, WithTop.coe_lt_top _, Tree.regular_identifier⟩)
  have hleaves : Token.LeavesOver .letIn ([.bare .identifier "a", .bare .equals "=",
      .bare .identifier "x"] ++ .bare .closeParen ")" :: []) :=
    .of_derives (Item.renaming_derives "a" "x") (Item.renaming_fault_free "a" "x")
      (Item.renaming_regular ..) rfl (by decide) (by decide) (by decide)
  have htokens : Token.program overrunProgram = overrunProgram.toList := rfl
  exact parse_loses_item hplace (List.cons_ne_nil _ _) (by decide) htokens rfl hleaves
    (hisolates overrunProgram _ _ _ _ _ hplace (List.cons_ne_nil _ _) (by decide) htokens)

end Tree

end LetScript
