import LetScript.Diagnostic.Collect
import LetScript.Parser.Expression
import LetScript.Proofs.Scope.Environment
import LetScript.Proofs.Tree.Derivation
import LetScript.Proofs.Tree.Nodes

/-!
# What stands in a tree

`Tree.faults` lists the faults of a tree in source order, wherever they stand: as expressions, as
items or as parameters. In a tree that derives some tokens, identifiers are among these tokens and
operators are of the right kinds (`Tree.Derives.formed`), and the invalid tokens are exactly those
that the faults have skipped (`Tree.Derives.filter_invalid`). Apart from unresolved identifiers, the
diagnostics of a tree are those of its faults (`Tree.filter_diagnostics`).
-/

namespace LetScript

/-! ## Faults -/

mutual

/-- The faults of a tree in source order. -/
def Tree.faults : Tree → List Fault
  | .identifier _ _ => []
  | .literal _ _ _ => []
  | .placeholder _ _ => []
  | .fault fault => [fault]
  | .paren _ _ inner _ => inner.faults
  | .letIn _ _ items _ body => Item.listFaults items ++ body.faults
  | .function _ _ params _ body => params.filterMap Param.fault? ++ body.faults
  | .record _ _ items _ => Item.listFaults items
  | .unary _ _ operand => operand.faults
  | .binary _ left _ right => left.faults ++ right.faults
  | .apply _ callee argument => callee.faults ++ argument.faults

/-- The faults of an item. -/
def Item.faults : Item → List Fault
  | .definition _ _ _ value => value.faults
  | .fault fault => [fault]

/-- The faults of the items of a list. -/
def Item.listFaults : List Item → List Fault
  | [] => []
  | item :: items => item.faults ++ Item.listFaults items

end

/-- The faults of the items of a list are those of its items. -/
theorem Item.list_faults_eq (items : List Item) :
    Item.listFaults items = items.flatMap Item.faults := by
  induction items with
  | nil => rfl
  | cons item items ih => rw [Item.listFaults, ih, List.flatMap_cons]

/-- The faults of what continues an expression. -/
def Continuation.faults : Continuation → List Fault
  | binary _ _ right => right.faults
  | apply _ argument => argument.faults

/-- A continuation adds its faults to those of the left operand. -/
theorem Continuation.faults_attach (left : Tree) (continuation : Continuation) :
    (continuation.attach left).faults = left.faults ++ continuation.faults := by
  cases continuation <;> simp only [attach, Tree.faults, faults]

/-! ## Names and operators -/

/-- The tokens of a node are as its form requires: an identifier is one of the given tokens, and
operators are of the kinds that a grammar has for them. -/
def Node.Formed (tokens : List Token) : Node → Prop
  | .tree (.identifier _ token) => token ∈ tokens ∧ token.kind = .identifier
  | .tree (.unary _ operator _) => operator.kind ∈ Kind.signs
  | .tree (.binary _ _ operator _) => operator.kind ∈ Kind.operators
  | _ => True

/-- The token of an identifier is among the given ones. -/
theorem Node.Formed.of_identifier {tokens : List Token} {node : Node} (h : node.Formed tokens)
    {id : NodeId} {token : Token} (hid : node.identifier? = some (id, token)) :
    token ∈ tokens ∧ token.kind = .identifier := by
  unfold Node.identifier? at hid
  split at hid
  · cases hid
    exact h
  · cases hid

mutual

/-- The nodes of a tree are formed from the tokens that it derives. -/
theorem Tree.Derives.formed {tree : Tree} {w tokens : List Token} (h : tree.Derives w)
    (hw : w ⊆ tokens) : tree.Every (Node.Formed tokens) := by
  cases h with
  | identifier hkind => exact Tree.every_identifier.2 ⟨hw (List.mem_singleton.2 rfl), hkind⟩
  | literal _ _ => exact Tree.every_literal.2 trivial
  | placeholder _ => exact Tree.every_placeholder.2 trivial
  | fault => exact Tree.every_fault.2 trivial
  | paren _ hinner _ =>
      simp only [List.cons_append, List.cons_subset, List.append_subset] at hw
      exact Tree.every_paren.2 ⟨trivial, hinner.formed hw.2.1⟩
  | letIn _ hitems _ hbody =>
      simp only [List.cons_append, List.cons_subset, List.append_subset] at hw
      exact Tree.every_let_in.2 ⟨trivial, hitems.formed hw.2.1, hbody.formed hw.2.2.2⟩
  | function _ _ _ hbody =>
      simp only [List.cons_append, List.cons_subset, List.append_subset] at hw
      exact Tree.every_function.2 ⟨trivial, hbody.formed hw.2.2.2⟩
  | record _ hitems _ =>
      simp only [List.cons_append, List.cons_subset, List.append_subset] at hw
      exact Tree.every_record.2 ⟨trivial, hitems.formed hw.2.1⟩
  | unary hoperator hoperand =>
      exact Tree.every_unary.2 ⟨hoperator, hoperand.formed (List.cons_subset.1 hw).2⟩
  | binary hleft hoperator hright =>
      simp only [List.append_subset, List.cons_subset] at hw
      exact Tree.every_binary.2 ⟨hoperator, hleft.formed hw.1, hright.formed hw.2.2⟩
  | apply hcallee hargument =>
      obtain ⟨hw, hw'⟩ := List.append_subset.1 hw
      exact Tree.every_apply.2 ⟨trivial, hcallee.formed hw, hargument.formed hw'⟩

/-- The nodes of an item are formed from the tokens that it derives. -/
theorem Item.Derives.formed {item : Item} {w tokens : List Token} (h : item.Derives w)
    (toNode : Item → Node) (hnode : ∀ item, (toNode item).Formed tokens) (hw : w ⊆ tokens) :
    item.Every toNode (Node.Formed tokens) := by
  cases h with
  | definition _ _ hvalue =>
      simp only [List.cons_subset] at hw
      exact ⟨hnode _, hvalue.formed hw.2.2⟩
  | fault => exact hnode _

/-- The nodes of the items of a let are formed from the tokens that they derive. -/
theorem Item.LetDerives.formed {items : List Item} {w tokens : List Token}
    (h : Item.LetDerives items w) (hw : w ⊆ tokens) :
    ∀ item ∈ items, item.Every Node.ofBinding (Node.Formed tokens) := by
  have hnode (item : Item) : (Node.ofBinding item).Formed tokens := by cases item <;> trivial
  cases h with
  | nil => exact fun _ hmem => absurd hmem List.not_mem_nil
  | last hitem => exact List.forall_mem_singleton.2 (hitem.formed Node.ofBinding hnode hw)
  | cons hitem _ hitems =>
      simp only [List.append_subset, List.cons_subset] at hw
      exact List.forall_mem_cons.2 ⟨hitem.formed Node.ofBinding hnode hw.1, hitems.formed hw.2.2⟩

/-- The nodes of the items of a record are formed from the tokens that they derive. -/
theorem Item.RecordDerives.formed {items : List Item} {w tokens : List Token}
    (h : Item.RecordDerives items w) (hw : w ⊆ tokens) :
    ∀ item ∈ items, item.Every Node.ofField (Node.Formed tokens) := by
  have hnode (item : Item) : (Node.ofField item).Formed tokens := by cases item <;> trivial
  cases h with
  | nil => exact fun _ hmem => absurd hmem List.not_mem_nil
  | @last f => exact List.forall_mem_singleton.2 (hnode (.fault f))
  | cons hitem _ hitems =>
      simp only [List.append_subset, List.cons_subset] at hw
      exact List.forall_mem_cons.2 ⟨hitem.formed Node.ofField hnode hw.1, hitems.formed hw.2.2⟩

end

/-! ## Invalid tokens -/

/-- The invalid tokens of a list. -/
def Token.invalid (tokens : List Token) : List Token :=
  tokens.filter fun token => token.kind = .invalid

@[simp] theorem Token.invalid_nil : Token.invalid [] = [] := rfl

@[simp] theorem Token.invalid_append (first second : List Token) :
    Token.invalid (first ++ second) = Token.invalid first ++ Token.invalid second :=
  List.filter_append ..

/-- A token of another kind does not count. -/
theorem Token.invalid_cons {token : Token} {kind : Kind} (hkind : token.kind = kind)
    (h : kind ≠ .invalid) (tokens : List Token) :
    Token.invalid (token :: tokens) = Token.invalid tokens :=
  List.filter_cons_of_neg (by simpa [hkind] using h)

/-- Invalid tokens are significant. -/
@[simp] theorem Token.invalid_significant (tokens : List Token) :
    Token.invalid (Token.significant tokens) = Token.invalid tokens := by
  rw [Token.invalid, Token.significant, List.filter_filter]
  refine List.filter_congr fun token _ => ?_
  cases token.kind <;> rfl

/-- The invalid tokens that some faults have skipped. -/
def Fault.skippedInvalid (faults : List Fault) : List Token :=
  faults.flatMap fun fault => Token.invalid fault.skipped

@[simp] theorem Fault.skipped_invalid_nil : Fault.skippedInvalid [] = [] := rfl

@[simp] theorem Fault.skipped_invalid_append (first second : List Fault) :
    Fault.skippedInvalid (first ++ second) =
      Fault.skippedInvalid first ++ Fault.skippedInvalid second :=
  List.flatMap_append

@[simp] theorem Fault.skipped_invalid_singleton (fault : Fault) :
    Fault.skippedInvalid [fault] = Token.invalid fault.skipped :=
  List.flatMap_singleton ..

/-- The invalid tokens that parameters derive were skipped by their faults. -/
theorem Param.ListDerives.filter_invalid {params : List Param} {w : List Token}
    (h : Param.ListDerives params w) :
    Token.invalid w = Fault.skippedInvalid (params.filterMap Param.fault?) := by
  induction h with
  | nil => rfl
  | @cons param params w w' hparam _ ih =>
      rw [Token.invalid_append, ih]
      cases hparam with
      | name hkind =>
          rw [Token.invalid_cons hkind (by decide)]
          rfl
      | fault =>
          rw [Token.invalid_significant]
          rfl

mutual

/-- The invalid tokens that a tree derives were skipped by its faults. -/
theorem Tree.Derives.filter_invalid {tree : Tree} {w : List Token} (h : tree.Derives w) :
    Token.invalid w = Fault.skippedInvalid tree.faults := by
  cases h with
  | identifier hkind => rw [Token.invalid_cons hkind (by decide)]; rfl
  | literal hkind _ => rw [Token.invalid_cons hkind (by decide)]; rfl
  | placeholder hkind => rw [Token.invalid_cons hkind (by decide)]; rfl
  | fault => simp [Tree.faults]
  | paren hopener hinner hcloser =>
      rw [Tree.faults, List.cons_append, Token.invalid_cons hopener (by decide),
        Token.invalid_append, Token.invalid_cons hcloser (by decide), hinner.filter_invalid]
      simp
  | letIn hlet hitems hin hbody =>
      rw [Tree.faults, List.cons_append, Token.invalid_cons hlet (by decide),
        Token.invalid_append, Token.invalid_cons hin (by decide), hitems.filter_invalid,
        hbody.filter_invalid, Fault.skipped_invalid_append]
  | function hfn hparams harrow hbody =>
      rw [Tree.faults, List.cons_append, Token.invalid_cons hfn (by decide),
        Token.invalid_append, Token.invalid_cons harrow (by decide), hparams.filter_invalid,
        hbody.filter_invalid, Fault.skipped_invalid_append]
  | record hopener hitems hcloser =>
      rw [Tree.faults, List.cons_append, Token.invalid_cons hopener (by decide),
        Token.invalid_append, Token.invalid_cons hcloser (by decide), hitems.filter_invalid]
      simp
  | unary hoperator hoperand =>
      have hne : ∀ kind ∈ Kind.signs, kind ≠ .invalid := by decide
      rw [Tree.faults, Token.invalid_cons rfl (hne _ hoperator), hoperand.filter_invalid]
  | binary hleft hoperator hright =>
      have hne : ∀ kind ∈ Kind.operators, kind ≠ .invalid := by decide
      rw [Tree.faults, Token.invalid_append, Token.invalid_cons rfl (hne _ hoperator),
        hleft.filter_invalid, hright.filter_invalid, Fault.skipped_invalid_append]
  | apply hcallee hargument =>
      rw [Tree.faults, Token.invalid_append, hcallee.filter_invalid, hargument.filter_invalid,
        Fault.skipped_invalid_append]

/-- The invalid tokens that an item derives were skipped by its faults. -/
theorem Item.Derives.filter_invalid {item : Item} {w : List Token} (h : item.Derives w) :
    Token.invalid w = Fault.skippedInvalid item.faults := by
  cases h with
  | definition hname hequals hvalue =>
      rw [Item.faults, Token.invalid_cons hname (by decide),
        Token.invalid_cons hequals (by decide), hvalue.filter_invalid]
  | fault => simp [Item.faults]

/-- The invalid tokens that the items of a let derive were skipped by their faults. -/
theorem Item.LetDerives.filter_invalid {items : List Item} {w : List Token}
    (h : Item.LetDerives items w) :
    Token.invalid w = Fault.skippedInvalid (Item.listFaults items) := by
  cases h with
  | nil => rfl
  | last hitem =>
      rw [Item.listFaults, Item.listFaults, List.append_nil, hitem.filter_invalid]
  | cons hitem hsemicolon hitems =>
      rw [Item.listFaults, Token.invalid_append, Token.invalid_cons hsemicolon (by decide),
        hitem.filter_invalid, hitems.filter_invalid, Fault.skipped_invalid_append]

/-- The invalid tokens that the items of a record derive were skipped by their faults. -/
theorem Item.RecordDerives.filter_invalid {items : List Item} {w : List Token}
    (h : Item.RecordDerives items w) :
    Token.invalid w = Fault.skippedInvalid (Item.listFaults items) := by
  cases h with
  | nil => rfl
  | last => simp [Item.listFaults, Item.faults]
  | cons hitem hsemicolon hitems =>
      rw [Item.listFaults, Token.invalid_append, Token.invalid_cons hsemicolon (by decide),
        hitem.filter_invalid, hitems.filter_invalid, Fault.skipped_invalid_append]

end

/-! ## Diagnostics -/

/-- The diagnostics of an identifier that refers to nothing. -/
def Node.unresolved (bindings : Bindings) (node : Node) : List Diagnostic :=
  match node.identifier? with
  | some (id, _) => (bindings.diagnostic? id).toList
  | none => []

section Diagnostics

variable {bindings : Bindings} {p : Diagnostic → Bool}

mutual

/-- Diagnostics that no identifier has are those of faults. -/
theorem Tree.filter_diagnostics (tree : Tree)
    (h : tree.Every fun node => ∀ d ∈ node.unresolved bindings, ¬ p d) :
    (tree.diagnostics bindings).filter p = (tree.faults.flatMap Fault.diagnostics).filter p := by
  cases tree with
  | identifier id token => exact List.filter_eq_nil_iff.2 (Tree.every_identifier.1 h)
  | literal | placeholder => rfl
  | fault f => simp [Tree.diagnostics, Tree.faults]
  | paren id opener inner closer => exact inner.filter_diagnostics (Tree.every_paren.1 h).2
  | letIn id letToken items inToken body =>
      obtain ⟨-, hitems, hbody⟩ := Tree.every_let_in.1 h
      rw [Tree.diagnostics, Tree.faults, List.flatMap_append, List.filter_append,
        List.filter_append, Item.filter_list_diagnostics Node.ofBinding items hitems,
        body.filter_diagnostics hbody]
  | function id fnToken params arrow body =>
      rw [Tree.diagnostics, Tree.faults, List.flatMap_append, List.filter_append,
        List.filter_append, body.filter_diagnostics (Tree.every_function.1 h).2]
  | record id opener items closer =>
      exact Item.filter_list_diagnostics Node.ofField items (Tree.every_record.1 h).2
  | unary id operator operand => exact operand.filter_diagnostics (Tree.every_unary.1 h).2
  | binary id left operator right =>
      obtain ⟨-, hleft, hright⟩ := Tree.every_binary.1 h
      rw [Tree.diagnostics, Tree.faults, List.flatMap_append, List.filter_append,
        List.filter_append, left.filter_diagnostics hleft, right.filter_diagnostics hright]
  | apply id callee argument =>
      obtain ⟨-, hcallee, hargument⟩ := Tree.every_apply.1 h
      rw [Tree.diagnostics, Tree.faults, List.flatMap_append, List.filter_append,
        List.filter_append, callee.filter_diagnostics hcallee,
        argument.filter_diagnostics hargument]

/-- Diagnostics of a list of items that no identifier has are those of faults. -/
theorem Item.filter_list_diagnostics (toNode : Item → Node) (items : List Item)
    (h : ∀ item ∈ items, item.Every toNode fun node => ∀ d ∈ node.unresolved bindings, ¬ p d) :
    (Item.listDiagnostics bindings items).filter p =
      ((Item.listFaults items).flatMap Fault.diagnostics).filter p := by
  cases items with
  | nil => rfl
  | cons item items =>
      obtain ⟨hitem, hitems⟩ := List.forall_mem_cons.1 h
      have hfirst : (item.diagnostics bindings).filter p =
          (item.faults.flatMap Fault.diagnostics).filter p := by
        cases item with
        | definition id name equals value => exact value.filter_diagnostics hitem.2
        | fault f => simp [Item.diagnostics, Item.faults]
      rw [Item.listDiagnostics, Item.listFaults, List.flatMap_append, List.filter_append,
        List.filter_append, hfirst, Item.filter_list_diagnostics toNode items hitems]

end

end Diagnostics

end LetScript
