import LetScript.Compile
import LetScript.Proofs.Parser.Origins
import LetScript.Proofs.Scope.Identifiers

/-!
# What diagnostics are about

A diagnostic of a tree is reported by one of its faults or by an identifier that refers to nothing
(`Tree.mem_diagnostics`). So every diagnostic of a source is about one of its tokens, which is not
blank, and stands at the start of this token (`compile_about`).
-/

namespace LetScript

/-- What a diagnostic may say about a token: the parser has raised a fault at the token, the token
is invalid, or it is a name that refers to nothing. -/
inductive Diagnostic.About (token : Token) : Diagnostic → Prop where
  | raised {cause : Cause} : cause.Fits token → About token ⟨cause, token.span.start⟩
  | invalid : About token (token.diagnostic.getD ⟨.unrecognisedSymbol, token.span.start⟩)
  | unresolved : About token ⟨.unresolvedIdentifier token.value, token.span.start⟩

/-- A diagnostic of a tree is reported by a fault or by an identifier. -/
theorem Tree.mem_diagnostics {tree : Tree} {bindings : Bindings} {d : Diagnostic}
    (h : d ∈ tree.diagnostics bindings) :
    (∃ fault ∈ tree.faults, d ∈ fault.diagnostics) ∨
      ∃ entry ∈ tree.nodes, d ∈ entry.2.unresolved bindings := by
  by_cases hnode : ∃ entry ∈ tree.nodes, d ∈ entry.2.unresolved bindings
  · exact .inr hnode
  · -- no identifier reports it, so it is among those of the faults
    have hnone : tree.Every fun node =>
        ∀ other ∈ node.unresolved bindings, ¬ decide (other = d) = true :=
      fun entry hentry other hother heq => hnode ⟨entry, hentry, of_decide_eq_true heq ▸ hother⟩
    have hfilter := tree.filter_diagnostics (p := fun other => decide (other = d)) hnone
    have hmem : d ∈ (tree.diagnostics bindings).filter fun other => decide (other = d) :=
      List.mem_filter.2 ⟨h, decide_eq_true rfl⟩
    rw [hfilter] at hmem
    exact .inl (List.mem_flatMap.1 (List.mem_filter.1 hmem).1)

section Tokens

variable {tokens : List Token} {token : Token} {fault : Fault} {d : Diagnostic}

/-- A diagnostic stands at the start of the token that it is about. -/
theorem Diagnostic.About.position_eq (h : d.About token) (harranged : Token.Arranged tokens)
    (htoken : token ∈ tokens) : d.position = token.span.start := by
  cases h with
  | raised _ | unresolved => rfl
  | invalid =>
      cases hown : token.diagnostic with
      | none => rfl
      | some own => exact harranged.located token htoken own hown

/-- The diagnostics of a fault are about its own token and about those that it has skipped. -/
theorem Fault.Found.about (h : fault.Found tokens) (harranged : Token.Arranged tokens)
    (hd : d ∈ fault.diagnostics) : ∃ token ∈ tokens, token.kind ≠ .blank ∧ d.About token := by
  rcases List.mem_cons.1 hd with rfl | hd
  · refine ⟨fault.token, h.token_mem, h.kind_ne, ?_⟩
    rcases h.origin with hraised | hplace
    · have heq : fault.diagnostic = ⟨fault.diagnostic.cause, fault.token.span.start⟩ := by
        rw [← hraised.position_eq]
      rw [heq]
      exact .raised hraised.fits
    · rw [hplace.diagnostic_eq]
      exact .invalid
  · obtain ⟨token, hskipped, hown⟩ := List.mem_filterMap.1 hd
    have hown : token.diagnostic = some d := by
      split at hown
      · cases hown
      · exact hown
    have hkind := (harranged.diagnosed token (h.subset hskipped)).1 (by rw [hown]; rfl)
    refine ⟨token, h.subset hskipped, by rw [hkind]; decide, ?_⟩
    have habout : (token.diagnostic.getD _).About token := .invalid
    rwa [hown] at habout

end Tokens

/-- Every diagnostic of a source is about one of its tokens that are not blank. -/
theorem compile_about {source : String} {options : Options} {d : Diagnostic}
    (h : d ∈ (compile source options).diagnostics) :
    ∃ token ∈ (Token.read source options.fileName).toList,
      token.kind ≠ .blank ∧ d.About token := by
  have harranged := Token.read_arranged source options.fileName
  rcases Tree.mem_diagnostics h with ⟨fault, hfault, hd⟩ | ⟨entry, hentry, hd⟩
  · exact (Tree.parse_found harranged fault hfault).about harranged hd
  · have hresolved := Tree.resolved_parse _ options.globals entry hentry
    have hformed := (Tree.parse_derives _).formed (List.Subset.refl _) entry hentry
    unfold Node.unresolved at hd
    cases hidentifier : entry.2.identifier? with
    | none => simp [hidentifier] at hd
    | some found =>
        obtain ⟨id, name⟩ := found
        rw [hidentifier] at hd
        obtain ⟨hname, hkind⟩ := hformed.of_identifier hidentifier
        obtain rfl := hresolved.diagnostic_eq hidentifier (Option.mem_toList.1 hd)
        exact ⟨name, (List.takeWhile_sublist _).subset (List.mem_filter.1 hname).1,
          by rw [hkind]; decide, .unresolved⟩

end LetScript
