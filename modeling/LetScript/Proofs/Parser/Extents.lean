import LetScript.Proofs.Parser.Coverage

/-!
# The extents of nodes

A node keeps its outer tokens only, and takes its span from them and from its outer parts. This is
the span from the first to the last of the significant tokens that the node derives, because the
parts at the ends of a node are expressions, and these start and end with significant tokens: a
fault among them stands for a single invalid token (`Tree.spanned_parse`). Faults that stand for
skipped tokens, blank ones included, are found between the tokens of a node only.
-/

namespace LetScript

/-- A span goes from the start of the first token of a list to the end of the last one. -/
def Token.Spans (w : List Token) (span : Span) : Prop :=
  ∃ first last, w.head? = some first ∧ w.getLast? = some last ∧
    span = first.span.through last.span

namespace Token.Spans

/-- The span of a single token. -/
theorem singleton (token : Token) : Spans [token] token.span :=
  ⟨token, token, rfl, rfl, rfl⟩

/-- Two spans, and whatever stands between them. -/
theorem append {w w' : List Token} {span span' : Span} (h : Spans w span)
    (between : List Token) (h' : Spans w' span') :
    Spans (w ++ (between ++ w')) (span.through span') := by
  obtain ⟨first, last, hfirst, -, rfl⟩ := h
  obtain ⟨first', last', -, hlast', rfl⟩ := h'
  refine ⟨first, last', ?_, ?_, rfl⟩
  · rw [List.head?_append, hfirst]
    rfl
  · rw [List.getLast?_append, List.getLast?_append, hlast']
    rfl

end Token.Spans

/-- A node derives the tokens that its tree or item derives. -/
def Node.Derives : Node → List Token → Prop
  | .tree t, w => t.Derives w
  | .binding id name equals value, w => (Item.definition id name equals value).Derives w
  | .field id name equals value, w => (Item.definition id name equals value).Derives w

/-- The parameters of a node, if it is a function. -/
def Node.params : Node → List Param
  | .tree (.function _ _ params _ _) => params
  | _ => []

/-- The fault that a node is. -/
def Node.fault? : Node → Option Fault
  | .tree (.fault f) => some f
  | _ => none

/-- A node and its parameters, unless they are faults, have the spans of the tokens that they
derive, and these are among the given ones. -/
structure Node.Spanned (tokens : List Token) (node : Node) : Prop where
  derived : node.fault? = none →
    ∃ w, w <:+: tokens ∧ node.Derives w ∧ Token.Spans w node.span
  params : ∀ param ∈ node.params, param.fault? = none →
    ∃ w, w <:+: tokens ∧ param.Derives w ∧ Token.Spans w param.span

namespace Node.Spanned

variable {tokens tokens' w : List Token} {node : Node}

/-- The tokens may be among others. -/
theorem mono (h : node.Spanned tokens) (hamong : tokens <:+: tokens') : node.Spanned tokens' where
  derived hfault := by
    obtain ⟨w, hw, hderives, hspans⟩ := h.derived hfault
    exact ⟨w, hw.trans hamong, hderives, hspans⟩
  params param hparam hfault := by
    obtain ⟨w, hw, hderives, hspans⟩ := h.params param hparam hfault
    exact ⟨w, hw.trans hamong, hderives, hspans⟩

/-- A node without parameters. -/
theorem of_spans (hderives : node.Derives w) (hspans : Token.Spans w node.span)
    (hparams : node.params = []) : node.Spanned w where
  derived _ := ⟨w, List.infix_rfl, hderives, hspans⟩
  params param hparam := by
    rw [hparams] at hparam
    exact absurd hparam List.not_mem_nil

/-- A fault may have any span. -/
theorem of_fault (tokens : List Token) (fault : Fault) :
    Node.Spanned tokens (.tree (.fault fault)) where
  derived := nofun
  params _ hparam := absurd hparam List.not_mem_nil

/-- The node of an item of a let. -/
theorem of_binding {item : Item}
    (h : item.fault? = none → item.Derives w ∧ Token.Spans w item.span) :
    (Node.ofBinding item).Spanned w := by
  cases item with
  | definition id name equals value => exact .of_spans (h rfl).1 (h rfl).2 rfl
  | fault f => exact .of_fault w f

/-- The node of an item of a record. -/
theorem of_field {item : Item}
    (h : item.fault? = none → item.Derives w ∧ Token.Spans w item.span) :
    (Node.ofField item).Spanned w := by
  cases item with
  | definition id name equals value => exact .of_spans (h rfl).1 (h rfl).2 rfl
  | fault f => exact .of_fault w f

end Node.Spanned

/-- A tree derives some tokens, has their span, and all its nodes have the spans of the tokens that
they derive among these. -/
structure Tree.Spanned (w : List Token) (tree : Tree) : Prop where
  derives : tree.Derives w
  spans : Token.Spans w tree.span
  nodes : tree.Every (Node.Spanned w)

section Every

variable {P Q : Node → Prop}

/-- A property of all nodes of a tree may be weakened. -/
theorem Tree.Every.mono {tree : Tree} (h : tree.Every P) (hPQ : ∀ node, P node → Q node) :
    tree.Every Q :=
  fun entry hentry => hPQ _ (h entry hentry)

/-- A property of all nodes of an item may be weakened. -/
theorem Item.Every.mono {toNode : Item → Node} {item : Item} (h : item.Every toNode P)
    (hPQ : ∀ node, P node → Q node) : item.Every toNode Q := by
  cases item with
  | definition id name equals value => exact ⟨hPQ _ h.1, h.2.mono hPQ⟩
  | fault f => exact hPQ _ h

end Every

namespace Parser

open Reading

variable {R : Reading Tree} {first next : Token} {w : List Token} {toNode : Item → Node}

/-- What holds of every item that is read holds of all items up to a terminator, with respect to all
tokens read for them. -/
theorem Reading.Items.forall_mem {α : Type} {terminator : Kind} {S : Reading α}
    {Q : List Token → α → Prop} (hmono : ∀ w w' item, Q w item → w <:+: w' → Q w' item)
    (hS : ∀ first item w next, S first item w next → Q w item) {items : List α}
    (h : Items terminator S first items w next) : ∀ item ∈ items, Q w item := by
  induction h with
  | done => exact fun _ hmem => absurd hmem List.not_mem_nil
  | @item first middle next item items w w' _ hitem _ ih =>
      refine List.forall_mem_cons.2 ⟨?_, fun other hother => ?_⟩
      · exact hmono _ _ _ (hS _ _ _ _ hitem) (List.prefix_append w w').isInfix
      · exact hmono _ _ _ (ih other hother) (List.suffix_append w w').isInfix

section Items

variable (hR : ∀ first tree w next, R first tree w next → tree.Spanned w)
  (hnode : ∀ item w, (item.fault? = none → item.Derives w ∧ Token.Spans w item.span) →
    (toNode item).Spanned w)

include hR hnode

/-- A definition has the span of the tokens read for it, and so have the nodes in it. -/
theorem definition_spanned {terminator : Kind} {item : Item}
    (h : recovered terminator .fault (Definition R) first item w next) :
    item.Every toNode (Node.Spanned w) := by
  have hderives := definition_derives (fun _ _ _ _ h => (hR _ _ _ _ h).derives) h
  rcases h with ⟨id, hname, hequals, hvalue⟩ | ⟨fault, rfl, rfl, -⟩
  · obtain ⟨-, hspans, hnodes⟩ := hR _ _ _ _ hvalue
    refine ⟨hnode _ _ fun _ => ⟨hderives, (Token.Spans.singleton _).append [_] hspans⟩, ?_⟩
    exact hnodes.mono fun _ h => h.mono (List.suffix_append [_, _] _).isInfix
  · exact hnode _ _ nofun

/-- The nodes of an item with the semicolon after it have the spans of the tokens read for them. -/
theorem ended_spanned {terminator : Kind} {item : Item} (semicolon : Token)
    (h : recovered terminator .fault (Definition R) first item w next) :
    item.Every toNode (Node.Spanned (w ++ [semicolon])) :=
  (definition_spanned hR hnode h).mono fun _ h => h.mono (List.prefix_append ..).isInfix

omit hR in
/-- The nodes of items up to a terminator have the spans of the tokens read for them. -/
theorem items_spanned {terminator : Kind} {S : Reading Item}
    (hS : ∀ first item w next, S first item w next → item.Every toNode (Node.Spanned w))
    {items : List Item} (h : Items terminator (recovered terminator .fault S) first items w next) :
    ∀ item ∈ items, item.Every toNode (Node.Spanned w) := by
  refine h.forall_mem (Q := fun w item => item.Every toNode (Node.Spanned w)) ?_ ?_
  · exact fun w w' item h hamong => Item.Every.mono h fun _ h => h.mono hamong
  · rintro first item w next (hitem | ⟨fault, rfl, rfl, -⟩)
    · exact hS _ _ _ _ hitem
    · exact hnode _ _ nofun

end Items

/-- Parameters have the spans of the tokens read for them. -/
theorem params_spanned {params : List Param}
    (h : Items .arrow (recovered .arrow .fault ParamName) first params w next) :
    ∀ param ∈ params, param.fault? = none →
      ∃ w', w' <:+: w ∧ param.Derives w' ∧ Token.Spans w' param.span := by
  refine h.forall_mem (Q := fun w param => param.fault? = none →
    ∃ w', w' <:+: w ∧ param.Derives w' ∧ Token.Spans w' param.span) ?_ ?_
  · intro w w' param h hamong hfault
    obtain ⟨v, hv, hderives, hspans⟩ := h hfault
    exact ⟨v, hv.trans hamong, hderives, hspans⟩
  · rintro first param w next (⟨id, hname⟩ | ⟨fault, rfl, rfl, -⟩) hfault
    · exact ⟨_, List.infix_rfl, .name hname, .singleton _⟩
    · cases hfault

section Layers

variable {P : Power → Reading Tree}
  (hP : ∀ power first tree w next, P power first tree w next → tree.Spanned w)

include hP

/-- An expression that starts with a token has the span of the tokens read for it. -/
theorem prefix_form_spans {rule : PrefixRule} {tree : Tree}
    (h : PrefixForm P rule first tree w next) : Token.Spans w tree.span := by
  cases h with
  | identifier | literal | placeholder => exact .singleton first
  | @invalid token next fault hskipped =>
      have hspan : (Tree.fault fault).span = first.span := by
        rw [Tree.span, Fault.span, hskipped]
        rfl
      rw [hspan]
      exact .singleton first
  | @function id _ _ arrow _ _ _ _ w w' _ hbody =>
      have hspans := (Token.Spans.singleton first).append (w ++ [arrow]) (hP _ _ _ _ _ hbody).spans
      rwa [List.append_assoc] at hspans
  | @letIn id _ _ inToken _ _ _ _ w w' _ hbody =>
      have hspans :=
        (Token.Spans.singleton first).append (w ++ [inToken]) (hP _ _ _ _ _ hbody).spans
      rwa [List.append_assoc] at hspans
  | @record id _ _ closer _ _ w _ =>
      exact (Token.Spans.singleton first).append w (.singleton closer)
  | @group id _ _ closer _ _ w _ _ =>
      exact (Token.Spans.singleton first).append w (.singleton closer)
  | sign id hoperand => exact (Token.Spans.singleton first).append [] (hP _ _ _ _ _ hoperand).spans

/-- An expression that starts with a token, and the nodes in it, have the spans of the tokens read
for them. -/
theorem prefix_form_spanned {rule : PrefixRule} {tree : Tree} (hfirst : first.kind ∈ rule.starts)
    (h : PrefixForm P rule first tree w next) : tree.Spanned w := by
  have hderives := prefix_form_derives (fun _ _ _ _ _ h => (hP _ _ _ _ _ h).derives) hfirst h
  have hspans := prefix_form_spans hP h
  have hroot (hparams : (Node.tree tree).params = []) : Node.Spanned w (.tree tree) :=
    .of_spans hderives hspans hparams
  refine ⟨hderives, hspans, ?_⟩
  cases h with
  | identifier => exact Tree.every_identifier.2 (hroot rfl)
  | literal => exact Tree.every_literal.2 (hroot rfl)
  | invalid => exact Tree.every_fault.2 (hroot rfl)
  | placeholder => exact Tree.every_placeholder.2 (hroot rfl)
  | @function id _ _ arrow _ _ params body w w' hparams hbody =>
      refine Tree.every_function.2 ⟨⟨fun _ => ⟨_, List.infix_rfl, hderives, hspans⟩, ?_⟩, ?_⟩
      · intro param hparam hfault
        obtain ⟨v, hv, hparam, hspans⟩ := params_spanned hparams param hparam hfault
        exact ⟨v, hv.trans (List.infix_append [first] w (arrow :: w')), hparam, hspans⟩
      · have hamong : w' <:+: first :: w ++ arrow :: w' := ⟨first :: w ++ [arrow], [], by simp⟩
        exact (hP _ _ _ _ _ hbody).nodes.mono fun _ h => h.mono hamong
  | @letIn id _ _ inToken _ _ items body w w' hitems hbody =>
      have hamong : w' <:+: first :: w ++ inToken :: w' := ⟨first :: w ++ [inToken], [], by simp⟩
      have hitems := items_spanned (fun _ _ => .of_binding) (fun _ _ _ _ hitem => ?_) hitems
      · refine Tree.every_let_in.2 ⟨hroot rfl, fun item hitem => ?_, ?_⟩
        · exact (hitems item hitem).mono fun _ h =>
            h.mono (List.infix_append [first] w (inToken :: w'))
        · exact (hP _ _ _ _ _ hbody).nodes.mono fun _ h => h.mono hamong
      · cases hitem with
        | ended hitem _ => exact ended_spanned (hP .letIn) (fun _ _ => .of_binding) _ hitem
        | last hitem _ => exact definition_spanned (hP .letIn) (fun _ _ => .of_binding) hitem
  | @record id _ _ closer _ items w hitems =>
      have hitems := items_spanned (fun _ _ => .of_field) (fun _ _ _ _ hitem => ?_) hitems
      · refine Tree.every_record.2 ⟨hroot rfl, fun item hitem => ?_⟩
        exact (hitems item hitem).mono fun _ h => h.mono (List.infix_append [first] w [closer])
      · cases hitem with
        | ended hitem _ => exact ended_spanned (hP .record) (fun _ _ => .of_field) _ hitem
  | @group id _ _ closer _ inner w hinner hcloser =>
      refine Tree.every_paren.2 ⟨hroot rfl, ?_⟩
      rcases hinner with hinner | ⟨fault, rfl, rfl, -⟩
      · exact (hP _ _ _ _ _ hinner).nodes.mono fun _ h =>
          h.mono (List.infix_append [first] w [closer])
      · exact Tree.every_fault.2 (.of_fault _ fault)
  | sign id hoperand =>
      refine Tree.every_unary.2 ⟨hroot rfl, ?_⟩
      exact (hP _ _ _ _ _ hoperand).nodes.mono fun _ h => h.mono (List.suffix_append [_] _).isInfix

end Layers

/-- Having the span of the tokens read is closed under the layers of the language. -/
theorem spanned_interpretation :
    Interpretation .standard (fun _ _ _ tree w _ => tree.Spanned w)
      (fun _ _ _ tree w _ => tree.Spanned w) where
  of_start hrule hform :=
    prefix_form_spanned (fun _ _ _ _ _ => id) (Grammar.mem_starts hrule)
      (hform (Grammar.kind_ne_end hrule))
  of_continuation := by
    intro _ _ _ _ _ middle _ left continuation w w' hleft hrule _ hform _
    cases hform (Grammar.infix_kind_ne_end hrule) with
    | @binary id _ _ _ right w' hright =>
        have hderives : (Tree.binary id left middle right).Derives (w ++ middle :: w') :=
          .binary hleft.derives (Grammar.mem_operators hrule) hright.derives
        have hspans := hleft.spans.append [middle] hright.spans
        refine ⟨hderives, hspans, Tree.every_binary.2 ⟨.of_spans hderives hspans rfl, ?_, ?_⟩⟩
        · exact hleft.nodes.mono fun _ h => h.mono (List.prefix_append ..).isInfix
        · exact hright.nodes.mono fun _ h => h.mono ⟨w ++ [middle], [], by simp⟩
    | @apply id _ _ argument w' hargument =>
        have hderives : (Tree.apply id left argument).Derives (w ++ w') :=
          .apply hleft.derives hargument.derives
        have hspans := hleft.spans.append [] hargument.spans
        refine ⟨hderives, hspans, Tree.every_apply.2 ⟨.of_spans hderives hspans rfl, ?_, ?_⟩⟩
        · exact hleft.nodes.mono fun _ h => h.mono (List.prefix_append ..).isInfix
        · exact hargument.nodes.mono fun _ h => h.mono (List.suffix_append ..).isInfix
  of_left hleft _ := hleft

end Parser

/-- The nodes of a parsed tree, unless they are faults, have the spans of the tokens that they
derive. -/
theorem Tree.spanned_parse (tokens : Array Token) :
    (Tree.parse tokens).Every (Node.Spanned (Token.program tokens)) := by
  rcases Tree.parse_outcome Parser.spanned_interpretation tokens with
    ⟨_, _, _, htree⟩ | ⟨fault, hfault, -⟩
  · exact htree.nodes
  · rw [hfault]
    exact Tree.every_fault.2 (.of_fault _ fault)

end LetScript
