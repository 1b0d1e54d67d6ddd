import LetScript.Proofs.Parser.Forms
import LetScript.Proofs.Tree.Derivation
import LetScript.Proofs.Tree.Nodes

/-!
# The parser loses no token

The tree of a token sequence derives exactly the significant tokens before the first end of input,
in their order (`parse_covers_tokens`). Deriving the tokens read is closed under the layers of an
expression, where the tokens of a part that was given up are those its fault has skipped, so it
holds of whole expressions. What remains is where the parser stops: after a result it is at an end
of input, and a fault that no construct takes has skipped everything before one.
-/

namespace LetScript

/-- The kinds of the tokens that start an expression by a rule. -/
def PrefixRule.starts : PrefixRule → List Kind
  | .identifier => [.identifier]
  | .literal => [.number]
  | .invalid => [.invalid]
  | .placeholder => [.ellipsis]
  | .function => [.fnWord]
  | .letIn => [.letWord]
  | .record => [.openCurly]
  | .group => [.openParen]
  | .sign => Kind.signs

/-- A rule of the language starts with one of its kinds. -/
theorem Grammar.mem_starts {kind : Kind} {rule : PrefixRule}
    (h : Grammar.standard.prefixRule kind = some rule) : kind ∈ rule.starts := by
  cases kind <;> cases h <;> decide

/-- The end of input starts no expression of the language. -/
theorem Grammar.kind_ne_end {kind : Kind} {rule : PrefixRule}
    (h : Grammar.standard.prefixRule kind = some rule) : kind ≠ .endOfInput := by
  rintro rfl
  cases h

/-- Only operators continue an expression of the language with another operand. -/
theorem Grammar.mem_operators {kind : Kind} {power : Power}
    (h : Grammar.standard.infixRule kind = some (power, .binary)) : kind ∈ Kind.operators := by
  cases kind <;> cases h <;> decide

/-- The end of input continues no expression of the language. -/
theorem Grammar.infix_kind_ne_end {kind : Kind} {power : Power} {rule : InfixRule}
    (h : Grammar.standard.infixRule kind = some (power, rule)) : kind ≠ .endOfInput := by
  rintro rfl
  cases h

namespace Parser

open Reading

variable {stream : TokenStream} {R : Reading Tree} {first next : Token} {w : List Token}

/-- A definition derives the tokens read for it. -/
theorem definition_derives {terminator : Kind}
    (hR : ∀ first tree w next, R first tree w next → tree.Derives w) {item : Item}
    (h : recovered terminator .fault (Definition R) first item w next) : item.Derives w := by
  rcases h with ⟨id, hname, hequals, hvalue⟩ | ⟨fault, rfl, rfl, -⟩
  · exact .definition hname hequals (hR _ _ _ _ hvalue)
  · exact .fault

/-- Parameters derive the tokens read for them. -/
theorem params_derive {params : List Param}
    (h : Items .arrow (recovered .arrow .fault ParamName) first params w next) :
    Param.ListDerives params w := by
  induction h with
  | done => exact .nil
  | item _ hparam _ ih =>
      rcases hparam with ⟨id, hname⟩ | ⟨fault, rfl, rfl, -⟩
      · exact .cons (.name hname) ih
      · exact .cons .fault ih

/-- The items of a let derive the tokens read for them. An item without a semicolon is the last
one, because `in` comes next. -/
theorem let_items_derive (hR : ∀ first tree w next, R first tree w next → tree.Derives w)
    {items : List Item}
    (h : Items .inWord (recovered .inWord .fault (LetItem R)) first items w next) :
    Item.LetDerives items w := by
  induction h with
  | done => exact .nil
  | item _ hitem hmore ih =>
      rcases hitem with hitem | ⟨fault, rfl, rfl, hmiddle⟩
      · cases hitem with
        | ended hitem hsemicolon =>
            rw [List.append_assoc]
            exact .cons (definition_derives hR hitem) hsemicolon ih
        | last hitem hmiddle =>
            obtain ⟨rfl, rfl⟩ := hmore.eq_nil hmiddle
            rw [List.append_nil]
            exact .last (definition_derives hR hitem)
      · obtain ⟨rfl, rfl⟩ := hmore.eq_nil hmiddle
        rw [List.append_nil]
        exact .last .fault

/-- The items of a record derive the tokens read for them. Only a fault lacks its semicolon, and
it is the last item, because the end of the record comes next. -/
theorem record_items_derive (hR : ∀ first tree w next, R first tree w next → tree.Derives w)
    {items : List Item}
    (h : Items .closeCurly (recovered .closeCurly .fault (RecordItem R)) first items w next) :
    Item.RecordDerives items w := by
  induction h with
  | done => exact .nil
  | item _ hitem hmore ih =>
      rcases hitem with ⟨hitem, hsemicolon⟩ | ⟨fault, rfl, rfl, hmiddle⟩
      · rw [List.append_assoc]
        exact .cons (definition_derives hR hitem) hsemicolon ih
      · obtain ⟨rfl, rfl⟩ := hmore.eq_nil hmiddle
        rw [List.append_nil]
        exact .last

/-- An expression that starts with a token derives the tokens read for it, if its operands do. -/
theorem prefix_form_derives {P : Power → Reading Tree}
    (hP : ∀ power first tree w next, P power first tree w next → tree.Derives w)
    {rule : PrefixRule} {tree : Tree} (hfirst : first.kind ∈ rule.starts)
    (h : PrefixForm P rule first tree w next) : tree.Derives w := by
  cases h with
  | identifier => exact .identifier (List.mem_singleton.1 hfirst)
  | literal id hvalue => exact .literal (List.mem_singleton.1 hfirst) hvalue
  | @invalid token next fault hskipped =>
      have hblank : first.kind ≠ .blank := by
        rw [List.mem_singleton.1 hfirst]
        decide
      rw [← Token.significant_singleton hblank, ← hskipped]
      exact .fault
  | placeholder => exact .placeholder (List.mem_singleton.1 hfirst)
  | function id hparams hbody =>
      exact .function (List.mem_singleton.1 hfirst) (params_derive hparams) hparams.kind_next
        (hP _ _ _ _ _ hbody)
  | letIn id hitems hbody =>
      exact .letIn (List.mem_singleton.1 hfirst) (let_items_derive (hP .letIn) hitems)
        hitems.kind_next (hP _ _ _ _ _ hbody)
  | record id hitems =>
      exact .record (List.mem_singleton.1 hfirst) (record_items_derive (hP .record) hitems)
        hitems.kind_next
  | group id hinner hcloser =>
      refine .paren (List.mem_singleton.1 hfirst) ?_ hcloser
      rcases hinner with hinner | ⟨fault, rfl, rfl, -⟩
      · exact hP _ _ _ _ _ hinner
      · exact .fault
  | sign id hoperand => exact .unary hfirst (hP _ _ _ _ _ hoperand)

/-- Deriving the tokens read is closed under the layers of the language. -/
theorem derives_interpretation :
    Interpretation .standard (fun _ _ _ tree w _ => tree.Derives w)
      (fun _ _ _ tree w _ => tree.Derives w) where
  of_start hrule hform :=
    prefix_form_derives (fun _ _ _ _ _ => id) (Grammar.mem_starts hrule)
      (hform (Grammar.kind_ne_end hrule))
  of_continuation hleft hrule _ hform _ := by
    cases hform (Grammar.infix_kind_ne_end hrule) with
    | binary id hright => exact .binary hleft (Grammar.mem_operators hrule) hright
    | apply id hargument => exact .apply hleft hargument
  of_left hleft _ := hleft

/-- Faults can be raised in the state before the first token. -/
theorem State.ready_initial : State.Ready {} := by
  refine ⟨List.mem_singleton.2 rfl, by decide, ?_⟩
  intro entry hentry
  have heq : entry = ⟨.endOfInput, 0⟩ := List.mem_singleton.1 hentry
  subst heq
  exact Nat.le_refl 0

/-- A fault that no construct takes has skipped everything up to an end of input. -/
theorem Unwound.of_initial {fault : Fault} {s' : State} (h : Unwound stream {} fault s') :
    stream.kindAt s'.pos = .endOfInput ∧ fault.skipped = stream.slice 0 s'.pos := by
  obtain ⟨entry, hentry, hskipped⟩ := h.innermost
  have heq : entry = ⟨.endOfInput, 0⟩ := List.mem_singleton.1 hentry.mem
  subst heq
  exact ⟨hentry.1.symm, hskipped⟩

end Parser

/-- The tree of a token sequence has the meaning of a whole expression over the significant tokens
before the first end of input, or it is a fault that has skipped all of them. -/
theorem Tree.parse_outcome {left whole : Nat → Power → Parser.Reading Tree}
    (h : Parser.Interpretation .standard left whole) (tokens : Array Token) :
    (∃ first next, next.kind = .endOfInput ∧
        whole maxNesting .lowest first (Tree.parse tokens) (Token.program tokens) next) ∨
      ∃ fault, Tree.parse tokens = .fault fault ∧
        Token.significant fault.skipped = Token.program tokens := by
  let stream := TokenStream.ofTokens tokens
  have houtcome := Parser.program_parses stream h {} Parser.State.ready_initial
  unfold Tree.parse Tree.parseWith
  split
  next tree s' hcase =>
    rw [hcase] at houtcome
    obtain ⟨hfollows, hend, htree⟩ := houtcome
    have hpasses := hfollows.passes.trans (stream.passes_significant s'.pos)
    -- blank tokens may still be ahead of the end of input, but nothing else
    have hwindow : stream.window 0 s'.pos = Token.program tokens := by
      rw [← TokenStream.window_eq_program hpasses hend,
        ← TokenStream.window_append hfollows.passes.le (stream.le_significant s'.pos),
        stream.window_significant, List.append_nil]
    exact .inl ⟨_, _, hend, hwindow ▸ htree⟩
  next fault s' hcase =>
    rw [hcase] at houtcome
    obtain ⟨hend, hskipped⟩ := houtcome.of_initial
    refine .inr ⟨fault, rfl, ?_⟩
    rw [← TokenStream.window_eq_program houtcome.passes hend, hskipped]
    rfl

/-- The tree of a token sequence derives the significant tokens before the first end of input. -/
theorem Tree.parse_derives (tokens : Array Token) :
    (Tree.parse tokens).Derives (Token.program tokens) := by
  rcases Tree.parse_outcome Parser.derives_interpretation tokens with
    ⟨_, _, _, htree⟩ | ⟨fault, hfault, hskipped⟩
  · exact htree
  · rw [hfault, ← hskipped]
    exact .fault

/-- The parser loses no token, takes none twice and keeps their order: the tree of any token
sequence derives the significant tokens before the first end of input. In it definitions stand only
in the lists of lets, fields only in the lists of records, and parameters are no nodes. -/
theorem Tree.parse_covers_tokens (tokens : Array Token) :
    (Tree.parse tokens).Derives (Token.program tokens) ∧
      ∀ entry ∈ (Tree.parse tokens).nodes,
        (entry.2.kind = .binding → ∃ parent ∈ (Tree.parse tokens).nodes,
          parent.2.kind = .letIn ∧ entry.2 ∈ parent.2.children) ∧
        (entry.2.kind = .field → ∃ parent ∈ (Tree.parse tokens).nodes,
          parent.2.kind = .record ∧ entry.2 ∈ parent.2.children) ∧
        entry.2.kind ≠ .param :=
  ⟨Tree.parse_derives tokens, fun _ hentry => (Tree.parse tokens).list_nodes_in_lists hentry⟩

end LetScript
