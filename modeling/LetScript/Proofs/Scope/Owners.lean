import LetScript.Proofs.Scope.Lexical

/-!
# Scopes and their nodes

The binder records with each scope the node that it belongs to. Every node that has a scope is the
node of this scope (`Tree.recorded_resolve`), so a scope belongs to one node.
-/

namespace LetScript

section Walk

variable {σ : Type} {enter leave : Node → σ → σ} {P : σ → Prop}
  (henter : ∀ node state, P state → P (enter node state))
  (hleave : ∀ node state, P state → P (leave node state))

include henter hleave

mutual

/-- What each step of a walk over a tree preserves the whole walk preserves. -/
theorem Tree.walk_preserves (tree : Tree) {state : σ} (h : P state) :
    P (tree.walk enter leave state) := by
  rw [Tree.walk.eq_def]
  apply hleave
  have hentered := henter (.tree tree) state h
  cases tree with
  | identifier | literal | placeholder | fault => exact hentered
  | paren _ _ inner _ => exact inner.walk_preserves hentered
  | letIn _ _ items _ body =>
      exact body.walk_preserves (Item.walk_list_preserves Node.ofBinding items hentered)
  | function _ _ _ _ body => exact body.walk_preserves hentered
  | record _ _ items _ => exact Item.walk_list_preserves Node.ofField items hentered
  | unary _ _ operand => exact operand.walk_preserves hentered
  | binary _ left _ right => exact right.walk_preserves (left.walk_preserves hentered)
  | apply _ callee argument => exact argument.walk_preserves (callee.walk_preserves hentered)

/-- What each step of a walk over a list of items preserves the whole walk preserves. -/
theorem Item.walk_list_preserves (toNode : Item → Node) (items : List Item) {state : σ}
    (h : P state) : P (Item.walkList toNode enter leave items state) := by
  cases items with
  | nil => exact h
  | cons item items =>
      rw [Item.walkList]
      refine Item.walk_list_preserves toNode items ?_
      rw [Item.walk.eq_def]
      apply hleave
      have hentered := henter (toNode item) state h
      cases item with
      | definition _ _ _ value => exact value.walk_preserves hentered
      | fault _ => exact hentered

end

end Walk

/-- The scope of a node is recorded as the scope of this node. -/
def Bindings.Recorded (bindings : Bindings) : Prop :=
  ∀ node id, bindings.scopeOf? node = some id → bindings.Opens node id

/-- A node enters a scope that is recorded as its own. -/
theorem Binder.recorded_open_scope {binder : Binder} (h : binder.Recorded) (node : NodeId)
    (kind : BindingKind) (names : List (NodeId × String)) :
    (binder.openScope node kind names).Recorded := by
  intro other id hother
  refine ⟨hother, ?_⟩
  rw [scope_open_scope] at hother
  split at hother
  next heq =>
    obtain rfl := Option.some.inj hother
    obtain ⟨scope, hscope, -, -, howner, -⟩ := binder.opened_scope node kind names
    exact ⟨scope, hscope, heq ▸ howner⟩
  next =>
    obtain ⟨-, scope, hscope, howner⟩ := h other id hother
    have hlt : id < binder.scopes.size := (Array.getElem?_eq_some_iff.1 hscope).1
    refine ⟨scope, ?_, howner⟩
    unfold openScope
    rw [Array.getElem?_push_lt hlt, ← hscope, Array.getElem?_eq_getElem hlt]

/-- After a tree is resolved, the scopes of its nodes are recorded. -/
theorem Tree.recorded_resolve (tree : Tree) (globals : List String) :
    (tree.resolve globals).Recorded := by
  refine Tree.walk_preserves (P := fun binder : Binder => binder.Recorded) ?_ ?_ tree ?_
  · intro node binder h
    unfold Binder.enter
    split
    · exact h
    · exact Binder.recorded_open_scope h _ _ _
    · exact Binder.recorded_open_scope h _ _ _
    · exact h
  · intro node binder h
    unfold Binder.leave
    split
    · exact h
    · exact h
  · intro node id hnode
    exact absurd hnode (by simp [Binder.start, Bindings.scopeOf?])

/-- A scope belongs to one node. -/
theorem Bindings.Opens.unique {bindings : Bindings} {node node' : NodeId} {id : ScopeId}
    (h : bindings.Opens node id) (h' : bindings.Opens node' id) : node = node' := by
  obtain ⟨-, scope, hscope, hnode⟩ := h
  obtain ⟨-, scope', hscope', hnode'⟩ := h'
  rw [hscope] at hscope'
  obtain rfl := Option.some.inj hscope'
  exact Option.some.inj (hnode.symm.trans hnode')

end LetScript
