import LetScript.Proofs.Parser.Identities
import LetScript.Proofs.Scope.Lexical

/-!
# The identifiers of a parsed tree

The nodes of a parsed tree have distinct identities, so each of its identifiers is resolved
(`Tree.resolved_parse`). One that refers to nothing is reported at its own start.
-/

namespace LetScript

/-- A node that is an identifier is resolved. -/
def Node.Resolved (bindings : Bindings) (globals : List String) (node : Node) : Prop :=
  ∀ id token, node.identifier? = some (id, token) → ∃ declaration resolution,
    bindings.resolution? id = some resolution ∧
      bindings.Resolves globals token declaration resolution

/-- All identifiers of a parsed tree are resolved. -/
theorem Tree.resolved_parse (tokens : Array Token) (globals : List String) :
    (Tree.parse tokens).Every (Node.Resolved ((Tree.parse tokens).resolve globals) globals) := by
  intro entry hentry id token hid
  have hwalked := (Tree.parse tokens).walk_walked (Binder.ready_start globals _)
    (Tree.parse_ids_nodup tokens)
  have hmem : (id, token) ∈ ((Tree.parse tokens).references .empty).map
      fun reference => (reference.id, reference.token) := by
    rw [Tree.map_references .empty 0]
    exact List.mem_filterMap.2 ⟨entry, hentry, hid⟩
  obtain ⟨reference, hreference, heq⟩ := List.mem_map.1 hmem
  obtain ⟨resolution, hfound, hresolves⟩ := hwalked.resolved reference hreference
  cases heq
  exact ⟨_, resolution, hfound, hresolves⟩

/-- An identifier that refers to nothing is reported at its own start. -/
theorem Node.Resolved.diagnostic_eq {bindings : Bindings} {globals : List String} {node : Node}
    (h : node.Resolved bindings globals) {id : NodeId} {token : Token}
    (hid : node.identifier? = some (id, token)) {diagnostic : Diagnostic}
    (hdiagnostic : bindings.diagnostic? id = some diagnostic) :
    diagnostic = ⟨.unresolvedIdentifier token.value, token.span.start⟩ := by
  obtain ⟨declaration, resolution, hfound, hresolves⟩ := h id token hid
  rw [Bindings.diagnostic?, hfound] at hdiagnostic
  cases hresolves with
  | declared _ => cases hdiagnostic
  | supplied _ => cases hdiagnostic
  | unknown _ => exact (Option.some.inj hdiagnostic).symm

end LetScript
