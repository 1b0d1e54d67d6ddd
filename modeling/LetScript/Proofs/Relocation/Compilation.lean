import LetScript.Compile
import LetScript.Proofs.Relocation.Tree
import LetScript.Proofs.Scope.Lexical
import LetScript.Proofs.Tree.Contents

/-!
# Compiling trees with other positions

Relocating a tree changes nothing in the program that is generated from it
(`Tree.generate_program_relocate`): the names of a relocated tree resolve as before, and positions
do not occur in scripts. The diagnostics of a relocated tree are those of the tree, relocated
(`Tree.diagnostics_relocate`). A fault reports all skipped tokens but the one at which it was found,
so this needs that relocation keeps this token apart from the other ones, and that blank tokens
have no diagnostic (`Fault.Kept`).
-/

namespace LetScript

variable {f : Position → Position}

/-! ## Names -/

/-- The outcome of looking up an identifier at another position. -/
def Resolution.relocate (f : Position → Position) : Resolution → Resolution
  | bound binding => bound binding
  | unresolved diagnostic => unresolved (diagnostic.relocate f)

/-- The bindings of a tree and of the relocated tree. -/
structure Bindings.Relocated (f : Position → Position) (bindings bindings' : Bindings) :
    Prop where
  scopes_eq : bindings'.scopes = bindings.scopes
  node_scopes_eq : bindings'.nodeScopes = bindings.nodeScopes
  resolution_eq : ∀ id, bindings'.resolution? id =
    (bindings.resolution? id).map (Resolution.relocate f)

/-- An unresolved identifier has a diagnostic at its other position. -/
theorem Bindings.Relocated.diagnostic_eq {bindings bindings' : Bindings}
    (h : bindings.Relocated f bindings') (id : NodeId) :
    bindings'.diagnostic? id = (bindings.diagnostic? id).map (Diagnostic.relocate f) := by
  unfold Bindings.diagnostic?
  rw [h.resolution_eq id]
  cases bindings.resolution? id with
  | none => rfl
  | some resolution => cases resolution <;> rfl

namespace Binder

/-- A binder in a tree and one at the same node of the relocated tree. -/
structure Relocated (f : Position → Position) (binder binder' : Binder) : Prop where
  bindings : binder.toBindings.Relocated f binder'.toBindings
  path_eq : binder'.path = binder.path

variable {binder binder' : Binder}

/-- A scope is opened as in the tree. -/
theorem Relocated.open_scope (h : binder.Relocated f binder') (node : NodeId) (kind : BindingKind)
    (names : List (NodeId × String)) :
    (binder.openScope node kind names).Relocated f (binder'.openScope node kind names) where
  bindings :=
    { scopes_eq := by simp only [openScope, h.bindings.scopes_eq, h.path_eq]
      node_scopes_eq := by simp only [openScope, h.bindings.scopes_eq, h.bindings.node_scopes_eq]
      resolution_eq := h.bindings.resolution_eq }
  path_eq := by simp only [openScope, h.bindings.scopes_eq, h.path_eq]

/-- An identifier is resolved as in the tree. -/
theorem Relocated.resolve (h : binder.Relocated f binder') (id : NodeId) (token : Token) :
    (binder.resolve id token).Relocated f (binder'.resolve id (token.relocate f)) where
  bindings :=
    { scopes_eq := h.bindings.scopes_eq
      node_scopes_eq := h.bindings.node_scopes_eq
      resolution_eq := by
        intro other
        by_cases hid : id = other
        · subst hid
          have hlookup : binder'.lookup token.value = binder.lookup token.value := by
            simp only [lookup, h.bindings.scopes_eq, h.path_eq]
          rw [resolution_resolve_self, resolution_resolve_self, Token.value_relocate, hlookup]
          cases binder.lookup token.value <;> rfl
        · rw [resolution_resolve_of_ne _ _ hid, resolution_resolve_of_ne _ _ hid]
          exact h.bindings.resolution_eq other }
  path_eq := h.path_eq

/-- A relocated node is entered like the node. -/
theorem Relocated.enter (h : binder.Relocated f binder') (node : Node) :
    (binder.enter node).Relocated f (binder'.enter (node.relocate f)) := by
  cases node with
  | binding | field => exact h
  | tree tree =>
      cases tree with
      | identifier id token => exact h.resolve id token
      | letIn id letToken items inToken body =>
          show Relocated f _ (binder'.openScope id .definition
            ((Item.relocateList f items).filterMap Item.declared?))
          rw [Item.declared_relocate]
          exact h.open_scope id .definition _
      | function id fnToken params arrow body =>
          show Relocated f _ (binder'.openScope id .param
            ((params.map (Param.relocate f)).filterMap Param.declared?))
          rw [Param.declared_relocate]
          exact h.open_scope id .param _
      | literal | placeholder | fault | paren | record | unary | binary | apply => exact h

/-- A relocated node is left like the node. -/
theorem Relocated.leave (h : binder.Relocated f binder') (node : Node) :
    (binder.leave node).Relocated f (binder'.leave (node.relocate f)) := by
  have hcurrent : binder'.current? = binder.current? := by
    simp only [current?, h.bindings.scopes_eq, h.path_eq]
  unfold Binder.leave
  rw [hcurrent, Node.id_relocate]
  split
  · exact ⟨h.bindings, by rw [h.path_eq]⟩
  · exact h

end Binder

section Walk

variable {σ τ : Type} {enter leave : Node → σ → σ} {enter' leave' : Node → τ → τ} {R : σ → τ → Prop}
  (henter : ∀ node state state', R state state' →
    R (enter node state) (enter' (node.relocate f) state'))
  (hleave : ∀ node state state', R state state' →
    R (leave node state) (leave' (node.relocate f) state'))

include henter hleave

mutual

/-- A relation that each step of two walks keeps, one over a tree and one over the relocated tree,
is kept by the whole walks. -/
theorem Tree.walk_relocate (tree : Tree) {state : σ} {state' : τ} (h : R state state') :
    R (tree.walk enter leave state) ((tree.relocate f).walk enter' leave' state') := by
  have hentered := henter (.tree tree) state state' h
  cases tree with
  | identifier | literal | placeholder | fault => exact hleave (.tree _) _ _ hentered
  | paren _ _ inner _ => exact hleave (.tree _) _ _ (inner.walk_relocate hentered)
  | letIn _ _ items _ body =>
      exact hleave (.tree _) _ _ <| body.walk_relocate <|
        Item.walk_list_relocate Node.of_binding_relocate items hentered
  | function _ _ _ _ body => exact hleave (.tree _) _ _ (body.walk_relocate hentered)
  | record _ _ items _ =>
      exact hleave (.tree _) _ _ (Item.walk_list_relocate Node.of_field_relocate items hentered)
  | unary _ _ operand => exact hleave (.tree _) _ _ (operand.walk_relocate hentered)
  | binary _ left _ right =>
      exact hleave (.tree _) _ _ (right.walk_relocate (left.walk_relocate hentered))
  | apply _ callee argument =>
      exact hleave (.tree _) _ _ (argument.walk_relocate (callee.walk_relocate hentered))

/-- A relation that each step of two walks keeps is kept by the walks over items. -/
theorem Item.walk_list_relocate {toNode : Item → Node}
    (hnode : ∀ item : Item, toNode (item.relocate f) = (toNode item).relocate f)
    (items : List Item) {state : σ} {state' : τ} (h : R state state') :
    R (Item.walkList toNode enter leave items state)
      (Item.walkList toNode enter' leave' (Item.relocateList f items) state') := by
  cases items with
  | nil => exact h
  | cons item items =>
      refine Item.walk_list_relocate hnode items ?_
      have hentered := henter (toNode item) state state' h
      have hleft := hleave (toNode item)
      rw [← hnode] at hentered
      simp only [← hnode] at hleft
      cases item with
      | definition _ _ _ value => exact hleft _ _ (value.walk_relocate hentered)
      | fault _ => exact hleft _ _ hentered

end

end Walk

/-- The names of a relocated tree resolve as before. -/
theorem Tree.resolve_relocate (tree : Tree) (globals : List String) :
    (tree.resolve globals).Relocated f ((tree.relocate f).resolve globals) := by
  refine (Tree.walk_relocate (R := Binder.Relocated f) (fun node _ _ h => h.enter node)
    (fun node _ _ h => h.leave node) tree ⟨⟨rfl, rfl, fun id => ?_⟩, rfl⟩).bindings
  simp [Binder.start, Bindings.resolution?]

/-! ## Scripts -/

open Script

variable {bindings bindings' : Bindings}

/-- An identifier has the same script. -/
theorem Script.lower_identifier_relocate (h : bindings.Relocated f bindings') (id : NodeId)
    (name : String) : lowerIdentifier bindings' id name = lowerIdentifier bindings id name := by
  unfold lowerIdentifier
  rw [h.resolution_eq id]
  cases bindings.resolution? id with
  | none => rfl
  | some resolution => cases resolution <;> rfl

/-- The faults of items have the same messages. -/
theorem Script.item_failures_relocate (items : List Item) :
    ((Item.relocateList f items).filterMap Item.fault?).map faultMessage =
      (items.filterMap Item.fault?).map faultMessage := by
  rw [Item.faults_relocate, List.map_map]
  rfl

/-- Whether a script can be called as it stands does not change. -/
theorem Tree.is_callee_relocate (tree : Tree) : (tree.relocate f).isCallee = tree.isCallee := by
  cases tree with
  | paren id opener inner closer => exact inner.is_callee_relocate
  | identifier | literal | placeholder | fault | letIn | function | record | unary | binary
  | apply => rfl

mutual

/-- A relocated tree has the same script. -/
theorem Tree.lower_relocate (h : bindings.Relocated f bindings') (curry : Bool) (tree : Tree) :
    (tree.relocate f).lower bindings' curry = tree.lower bindings curry := by
  cases tree with
  | identifier id token =>
      simp only [Tree.relocate, Tree.lower, Token.value_relocate, lower_identifier_relocate h]
  | literal | placeholder => rfl
  | fault fault => rfl
  | paren id opener inner closer => exact inner.lower_relocate h curry
  | letIn id letToken items inToken body =>
      have hvariable : recordVariable bindings' id = recordVariable bindings id := by
        simp only [recordVariable, Bindings.scopeOf?, h.node_scopes_eq]
      simp only [Tree.relocate, Tree.lower, Item.lower_list_relocate h curry items,
        body.lower_relocate h curry, item_failures_relocate, hvariable]
  | function id fnToken params arrow body =>
      have hfailures : ((params.map (Param.relocate f)).filterMap Param.fault?).map faultMessage =
          (params.filterMap Param.fault?).map faultMessage := by
        rw [Param.faults_relocate, List.map_map]
        rfl
      simp only [Tree.relocate, Tree.lower, Param.declared_relocate, hfailures,
        body.lower_relocate h curry]
  | record id opener items closer =>
      simp only [Tree.relocate, Tree.lower, Item.lower_list_relocate h curry items,
        item_failures_relocate]
  | unary id operator operand =>
      simp only [Tree.relocate, Tree.lower, Token.kind_relocate, operand.lower_relocate h curry]
      rfl
  | binary id left operator right =>
      simp only [Tree.relocate, Tree.lower, Token.kind_relocate, left.lower_relocate h curry,
        right.lower_relocate h curry]
      rfl
  | apply id callee argument =>
      simp only [Tree.relocate, Tree.lower, callee.lower_relocate h curry,
        argument.lower_relocate h curry, Tree.is_callee_relocate]

/-- The definitions among relocated items have the same scripts. -/
theorem Item.lower_list_relocate (h : bindings.Relocated f bindings') (curry : Bool)
    (items : List Item) :
    Item.lowerList bindings' curry (Item.relocateList f items) =
      Item.lowerList bindings curry items := by
  cases items with
  | nil => rfl
  | cons item items =>
      cases item with
      | definition id name equals value =>
          simp only [Item.relocateList, Item.relocate, Item.lowerList, Token.value_relocate,
            value.lower_relocate h curry, Item.lower_list_relocate h curry items]
      | fault fault =>
          simp only [Item.relocateList, Item.relocate, Item.lowerList,
            Item.lower_list_relocate h curry items]

end

/-- The same program is generated for a relocated tree. -/
theorem Tree.generate_program_relocate (tree : Tree) (options : Options) :
    (tree.relocate f).generateProgram ((tree.relocate f).resolve options.globals) options =
      tree.generateProgram (tree.resolve options.globals) options := by
  unfold Tree.generateProgram Node.generateProgram Generator.append
  simp only [Node.lower, tree.lower_relocate (tree.resolve_relocate options.globals)]

/-! ## Diagnostics -/

/-- Relocation keeps what a fault reports: no skipped blank token has a diagnostic, and the skipped
tokens with a diagnostic are kept apart from the token at which the fault was found. -/
structure Fault.Kept (f : Position → Position) (fault : Fault) : Prop where
  blank : ∀ token ∈ fault.skipped, token.kind = .blank → token.diagnostic = none
  apart : ∀ token ∈ fault.skipped, token.diagnostic.isSome →
    token.relocate f = fault.token.relocate f → token = fault.token

/-- The diagnostics of a relocated fault are those of the fault, relocated. -/
theorem Fault.Kept.diagnostics_relocate {fault : Fault} (h : fault.Kept f) :
    (fault.relocate f).diagnostics = fault.diagnostics.map (Diagnostic.relocate f) := by
  have hskipped (tokens : List Token) (hsubset : tokens ⊆ fault.skipped) :
      ((Token.relocateAll f tokens).filterMap fun token =>
          if token = fault.token.relocate f then none else token.diagnostic) =
        (tokens.filterMap fun token => if token = fault.token then none else token.diagnostic).map
          (Diagnostic.relocate f) := by
    induction tokens with
    | nil => rfl
    | cons token tokens ih =>
        obtain ⟨htoken, hrest⟩ := List.cons_subset.1 hsubset
        have ih := ih hrest
        by_cases hblank : token.kind = .blank
        · have hnone := h.blank token htoken hblank
          have hall : Token.relocateAll f (token :: tokens) = Token.relocateAll f tokens := by
            simp [Token.relocateAll, Token.significant, hblank]
          rw [hall, ih, List.filterMap_cons_none (by simp [hnone])]
        · have hall : Token.relocateAll f (token :: tokens) =
              token.relocate f :: Token.relocateAll f tokens := by
            simp [Token.relocateAll, Token.significant, hblank]
          -- the token is left out by both faults or by none
          have hsame : (if token.relocate f = fault.token.relocate f then none
              else (token.relocate f).diagnostic) =
                (if token = fault.token then none else token.diagnostic).map
                  (Diagnostic.relocate f) := by
            by_cases heq : token = fault.token
            · rw [if_pos (congrArg (Token.relocate f) heq), if_pos heq, Option.map_none]
            · rw [if_neg heq]
              cases hdiagnostic : token.diagnostic with
              | none => simp [Token.relocate, hdiagnostic]
              | some diagnostic =>
                  rw [if_neg fun hrelocated => heq (h.apart token htoken (by simp [hdiagnostic])
                    hrelocated)]
                  simp [Token.relocate, hdiagnostic]
          rw [hall, List.filterMap_cons, List.filterMap_cons, ih, hsame]
          cases (if token = fault.token then none else token.diagnostic) <;> rfl
  exact congrArg (List.cons _) (hskipped fault.skipped (List.Subset.refl _))

/-- The diagnostics of relocated faults are those of the faults, relocated. -/
theorem Fault.flat_map_diagnostics_relocate {faults : List Fault}
    (h : ∀ fault ∈ faults, fault.Kept f) :
    (faults.map (Fault.relocate f)).flatMap Fault.diagnostics =
      (faults.flatMap Fault.diagnostics).map (Diagnostic.relocate f) := by
  induction faults with
  | nil => rfl
  | cons fault faults ih =>
      obtain ⟨hfault, hrest⟩ := List.forall_mem_cons.1 h
      rw [List.map_cons, List.flatMap_cons, List.flatMap_cons, List.map_append, ih hrest,
        hfault.diagnostics_relocate]

mutual

/-- The diagnostics of a relocated tree are those of the tree, relocated. -/
theorem Tree.diagnostics_relocate (hbindings : bindings.Relocated f bindings') (tree : Tree)
    (h : ∀ fault ∈ tree.faults, fault.Kept f) :
    (tree.relocate f).diagnostics bindings' =
      (tree.diagnostics bindings).map (Diagnostic.relocate f) := by
  cases tree with
  | identifier id token =>
      simp only [Tree.relocate, Tree.diagnostics, hbindings.diagnostic_eq]
      cases bindings.diagnostic? id <;> rfl
  | literal | placeholder => rfl
  | fault fault => exact (h fault (List.mem_singleton.2 rfl)).diagnostics_relocate
  | paren id opener inner closer => exact inner.diagnostics_relocate hbindings h
  | letIn id letToken items inToken body =>
      obtain ⟨hitems, hbody⟩ := List.forall_mem_append.1 h
      simp only [Tree.relocate, Tree.diagnostics, List.map_append,
        Item.list_diagnostics_relocate hbindings items hitems,
        body.diagnostics_relocate hbindings hbody]
  | function id fnToken params arrow body =>
      obtain ⟨hparams, hbody⟩ := List.forall_mem_append.1 h
      simp only [Tree.relocate, Tree.diagnostics, List.map_append, Param.faults_relocate,
        Fault.flat_map_diagnostics_relocate hparams, body.diagnostics_relocate hbindings hbody]
  | record id opener items closer => exact Item.list_diagnostics_relocate hbindings items h
  | unary id operator operand => exact operand.diagnostics_relocate hbindings h
  | binary id left operator right =>
      obtain ⟨hleft, hright⟩ := List.forall_mem_append.1 h
      simp only [Tree.relocate, Tree.diagnostics, List.map_append,
        left.diagnostics_relocate hbindings hleft, right.diagnostics_relocate hbindings hright]
  | apply id callee argument =>
      obtain ⟨hcallee, hargument⟩ := List.forall_mem_append.1 h
      simp only [Tree.relocate, Tree.diagnostics, List.map_append,
        callee.diagnostics_relocate hbindings hcallee,
        argument.diagnostics_relocate hbindings hargument]

/-- The diagnostics of relocated items are those of the items, relocated. -/
theorem Item.list_diagnostics_relocate (hbindings : bindings.Relocated f bindings')
    (items : List Item) (h : ∀ fault ∈ Item.listFaults items, fault.Kept f) :
    Item.listDiagnostics bindings' (Item.relocateList f items) =
      (Item.listDiagnostics bindings items).map (Diagnostic.relocate f) := by
  cases items with
  | nil => rfl
  | cons item items =>
      obtain ⟨hitem, hitems⟩ := List.forall_mem_append.1 h
      have hfirst : (item.relocate f).diagnostics bindings' =
          (item.diagnostics bindings).map (Diagnostic.relocate f) := by
        cases item with
        | definition id name equals value => exact value.diagnostics_relocate hbindings hitem
        | fault fault => exact (hitem fault (List.mem_singleton.2 rfl)).diagnostics_relocate
      simp only [Item.relocateList, Item.listDiagnostics, List.map_append, hfirst,
        Item.list_diagnostics_relocate hbindings items hitems]

end

end LetScript
