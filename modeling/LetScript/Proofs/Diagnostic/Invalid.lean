import LetScript.Compile
import LetScript.Proofs.Parser.Origins
import LetScript.Proofs.Scope.Identifiers

/-!
# Invalid tokens are reported once

Every invalid token of a source has exactly one diagnostic at its start
(`compile_reports_invalid_once`). The tree derives the token once, so exactly one of its faults has
skipped it. If this fault was found at the token, it reports the token by its own diagnostic, and
otherwise by that of the token. All other diagnostics stand at the starts of other tokens.
-/

namespace LetScript

/-- The diagnostics at a position. -/
def Diagnostic.entriesAt (position : Position) (diagnostics : List Diagnostic) : List Diagnostic :=
  diagnostics.filter fun diagnostic => diagnostic.position = position

/-- The parser has raised a fault at a token. -/
def Fault.RaisedAt (fault : Fault) (token : Token) : Prop :=
  fault.token = token ∧ fault.diagnostic.cause.isSyntactic

section Faults

variable {tokens : List Token} {token : Token} {own : Diagnostic} {fault : Fault}

/-- A fault that was found at an invalid token has skipped it. -/
theorem Fault.Found.mem_skipped (h : fault.Found tokens) (hkind : fault.token.kind = .invalid) :
    fault.token ∈ fault.skipped := by
  rcases h.origin with hraised | hplace
  · exact hraised.skipped hkind
  · rw [hplace.skipped_eq]
    exact List.mem_singleton.2 rfl

/-- The diagnostic of a fault stands at the start of its token. -/
theorem Fault.Found.position_eq (harranged : Token.Arranged tokens) (h : fault.Found tokens) :
    fault.diagnostic.position = fault.token.span.start := by
  rcases h.origin with hraised | hplace
  · exact hraised.position_eq
  · rw [hplace.diagnostic_eq]
    cases hdiagnostic : fault.token.diagnostic with
    | none => rfl
    | some diagnostic =>
        exact harranged.located fault.token h.token_mem diagnostic hdiagnostic

/-- At the start of a token there are only its own diagnostics, as often as the token occurs among
those that may report theirs. -/
theorem Token.Arranged.entries_at_filter_map (h : Token.Arranged tokens) (htoken : token ∈ tokens)
    (hown : token.diagnostic = some own) (found : Token) {skipped : List Token}
    (hskipped : skipped ⊆ tokens) :
    Diagnostic.entriesAt token.span.start
        (skipped.filterMap fun token => if token = found then none else token.diagnostic) =
      if found = token then [] else List.replicate (skipped.count token) own := by
  induction skipped with
  | nil => simp [Diagnostic.entriesAt]
  | cons other skipped ih =>
      obtain ⟨hother, hskipped⟩ := List.cons_subset.1 hskipped
      have ih := ih hskipped
      unfold Diagnostic.entriesAt at ih ⊢
      by_cases hfound : other = found
      · rw [List.filterMap_cons_none (by simp [hfound]), ih, hfound]
        by_cases heq : found = token
        · simp [heq]
        · simp [heq]
      · cases hdiagnostic : other.diagnostic with
        | none =>
            have hne : other ≠ token := fun heq => by simp [← heq, hdiagnostic] at hown
            rw [List.filterMap_cons_none (by simp [hdiagnostic]), ih, List.count_cons_of_ne hne]
        | some diagnostic =>
            have hposition := h.located other hother diagnostic hdiagnostic
            rw [List.filterMap_cons_some (by simpa [hfound] using hdiagnostic)]
            by_cases heq : other = token
            · subst heq
              obtain rfl : diagnostic = own := Option.some.inj (hdiagnostic.symm.trans hown)
              rw [List.filter_cons_of_pos (by simpa using hposition), ih,
                if_neg (Ne.symm hfound), if_neg (Ne.symm hfound), List.count_cons_self]
              rfl
            · have hstart : diagnostic.position ≠ token.span.start := by
                rw [hposition]
                exact fun hstart => heq (h.eq_of_start_eq hother htoken hstart)
              rw [List.filter_cons_of_neg (by simpa using hstart), ih, List.count_cons_of_ne heq]

/-- What a fault reports at the start of an invalid token: its own diagnostic if it was found there,
and otherwise that of the token for each time it has skipped it. -/
theorem Fault.Found.entries_at (harranged : Token.Arranged tokens) (h : fault.Found tokens)
    (htoken : token ∈ tokens) (hown : token.diagnostic = some own) :
    Diagnostic.entriesAt token.span.start fault.diagnostics =
      if fault.token = token then [fault.diagnostic]
      else List.replicate (fault.skipped.count token) own := by
  have hrest := harranged.entries_at_filter_map htoken hown fault.token h.subset
  unfold Diagnostic.entriesAt at hrest ⊢
  rw [Fault.diagnostics]
  by_cases heq : fault.token = token
  · have hposition : fault.diagnostic.position = token.span.start := by
      rw [h.position_eq harranged, heq]
    rw [List.filter_cons_of_pos (by simpa using hposition), hrest, if_pos heq, if_pos heq]
  · have hposition : fault.diagnostic.position ≠ token.span.start := by
      rw [h.position_eq harranged]
      exact fun hstart => heq (harranged.eq_of_start_eq h.token_mem htoken hstart)
    rw [List.filter_cons_of_neg (by simpa using hposition), hrest, if_neg heq, if_neg heq]

/-- A token that faults have skipped once in total was skipped by one of them, and by none of the
others. -/
theorem Fault.exists_of_count_eq_one {faults : List Fault}
    (h : (faults.flatMap Fault.skipped).count token = 1) :
    ∃ before fault after, faults = before ++ fault :: after ∧ fault.skipped.count token = 1 ∧
      ∀ other ∈ before ++ after, token ∉ other.skipped := by
  have hmem : token ∈ faults.flatMap Fault.skipped := List.count_pos_iff.1 (by omega)
  obtain ⟨fault, hfault, htoken⟩ := List.mem_flatMap.1 hmem
  obtain ⟨before, after, rfl⟩ := List.append_of_mem hfault
  have hpos := List.count_pos_iff.2 htoken
  simp only [List.flatMap_append, List.flatMap_cons, List.count_append] at h
  have hnone {others : List Fault} (hcount : (others.flatMap Fault.skipped).count token = 0) :
      ∀ other ∈ others, token ∉ other.skipped := fun other hother hskipped =>
    List.count_eq_zero.1 hcount (List.mem_flatMap.2 ⟨other, hother, hskipped⟩)
  exact ⟨before, fault, after, rfl, by omega,
    List.forall_mem_append.2 ⟨hnone (by omega), hnone (by omega)⟩⟩

end Faults

/-! ## Sources -/

section Source

variable {tokens : Array Token} {token : Token} {own : Diagnostic}

/-- The faults of a parsed tree have skipped each invalid token once in total. -/
theorem Tree.count_skipped_parse (h : Token.Arranged tokens.toList) (htoken : token ∈ tokens.toList)
    (hkind : token.kind = .invalid) :
    ((Tree.parse tokens).faults.flatMap Fault.skipped).count token = 1 := by
  have hcount (all : List Token) : (Token.invalid all).count token = all.count token :=
    List.count_filter (by simpa using hkind)
  have hmem : token ∈ Token.program tokens := by
    rw [h.program_eq]
    exact List.mem_filter.2 ⟨List.mem_filter.2 ⟨htoken, by simp [hkind]⟩, by simp [hkind]⟩
  have hnodup : (Token.program tokens).Nodup := by
    rw [h.program_eq]
    exact (h.nodup.filter _).filter _
  have hskipped : (Token.invalid ((Tree.parse tokens).faults.flatMap Fault.skipped)) =
      Token.invalid (Token.program tokens) := by
    rw [(Tree.parse_derives tokens).filter_invalid, Token.invalid, List.filter_flatMap]
    rfl
  rw [← hcount, hskipped, hcount, hnodup.count, if_pos hmem]

/-- No identifier of a parsed tree is reported at the start of an invalid token. -/
theorem Tree.unresolved_parse (h : Token.Arranged tokens.toList) (htoken : token ∈ tokens.toList)
    (hkind : token.kind = .invalid) (globals : List String) :
    (Tree.parse tokens).Every fun node =>
      ∀ d ∈ node.unresolved ((Tree.parse tokens).resolve globals),
        ¬ decide (d.position = token.span.start) = true := by
  intro entry hentry d hd hposition
  have hresolved := Tree.resolved_parse tokens globals entry hentry
  have hformed := (Tree.parse_derives tokens).formed (List.Subset.refl _) entry hentry
  unfold Node.unresolved at hd
  cases hidentifier : entry.2.identifier? with
  | none => simp [hidentifier] at hd
  | some found =>
      obtain ⟨id, name⟩ := found
      rw [hidentifier] at hd
      have heq := hresolved.diagnostic_eq hidentifier (Option.mem_toList.1 hd)
      -- the name is another token of the source, so it starts elsewhere
      obtain ⟨hname, hnameKind⟩ := hformed.of_identifier hidentifier
      have hsource : name ∈ tokens.toList :=
        (List.takeWhile_sublist _).subset (List.mem_filter.1 hname).1
      have hstart : name.span.start = token.span.start := by
        rw [← of_decide_eq_true hposition, heq]
      rw [h.eq_of_start_eq hsource htoken hstart, hkind] at hnameKind
      cases hnameKind

/-- What is reported at the start of an invalid token, by the one fault that has skipped it. -/
theorem Tree.entries_at_parse (h : Token.Arranged tokens.toList) (htoken : token ∈ tokens.toList)
    (hkind : token.kind = .invalid) (hown : token.diagnostic = some own) (globals : List String) :
    ∃ fault ∈ (Tree.parse tokens).faults,
      (∀ other ∈ (Tree.parse tokens).faults, other.token = token → other = fault) ∧
      Diagnostic.entriesAt token.span.start
          ((Tree.parse tokens).diagnostics ((Tree.parse tokens).resolve globals)) =
        if fault.token = token then [fault.diagnostic] else [own] := by
  have hfound := Tree.parse_found h
  obtain ⟨before, fault, after, hfaults, hcount, hothers⟩ :=
    Fault.exists_of_count_eq_one (Tree.count_skipped_parse h htoken hkind)
  have hdiagnostics := Tree.filter_diagnostics _ (Tree.unresolved_parse h htoken hkind globals)
  rw [hfaults] at hfound hdiagnostics ⊢
  -- the others were neither found at the token nor have they skipped it
  have hne : ∀ other ∈ before ++ after, other.Found tokens.toList ∧ other.token ≠ token := by
    intro other hother
    have hmem : other ∈ before ++ fault :: after := by
      rcases List.mem_append.1 hother with hother | hother
      · exact List.mem_append_left _ hother
      · exact List.mem_append_right _ (List.mem_cons_of_mem _ hother)
    refine ⟨hfound other hmem, ?_⟩
    rintro rfl
    exact hothers other hother ((hfound other hmem).mem_skipped hkind)
  have hsilent {others : List Fault} (hsubset : others ⊆ before ++ after) :
      Diagnostic.entriesAt token.span.start (others.flatMap Fault.diagnostics) = [] := by
    rw [Diagnostic.entriesAt, List.filter_flatMap, List.flatMap_eq_nil_iff]
    intro other hother
    obtain ⟨hotherFound, hotherNe⟩ := hne other (hsubset hother)
    have hentries := hotherFound.entries_at h htoken hown
    rw [if_neg hotherNe, List.count_eq_zero.2 (hothers other (hsubset hother))] at hentries
    exact hentries
  refine ⟨fault, by simp, fun other hother heq => ?_, ?_⟩
  · rcases List.mem_append.1 hother with hother | hother
    · exact absurd heq (hne other (List.mem_append_left _ hother)).2
    · rcases List.mem_cons.1 hother with rfl | hother
      · rfl
      · exact absurd heq (hne other (List.mem_append_right _ hother)).2
  · have hentries := (hfound fault (by simp)).entries_at h htoken hown
    rw [hcount] at hentries
    calc Diagnostic.entriesAt token.span.start _
        = Diagnostic.entriesAt token.span.start
            ((before ++ fault :: after).flatMap Fault.diagnostics) := hdiagnostics
      _ = Diagnostic.entriesAt token.span.start (before.flatMap Fault.diagnostics) ++
            (Diagnostic.entriesAt token.span.start fault.diagnostics ++
              Diagnostic.entriesAt token.span.start (after.flatMap Fault.diagnostics)) := by
          simp [Diagnostic.entriesAt]
      _ = if fault.token = token then [fault.diagnostic] else [own] := by
          rw [hsilent (List.subset_append_left ..), hsilent (List.subset_append_right ..),
            List.nil_append, List.append_nil, hentries]
          rfl

end Source

/-- Every invalid token of a source is reported exactly once. One diagnostic of the compilation
stands at its start: that of the fault which the parser has raised at the token, if there is one,
and otherwise the token's own. So a source without diagnostics has no invalid tokens. -/
theorem compile_reports_invalid_once (source : String) (options : Options) :
    (∀ token ∈ (Token.read source options.fileName).toList, token.kind = .invalid →
      ∃ own, token.diagnostic = some own ∧
        (∀ fault ∈ (compile source options).tree.faults, fault.RaisedAt token →
          Diagnostic.entriesAt token.span.start (compile source options).diagnostics =
            [fault.diagnostic]) ∧
        ((∀ fault ∈ (compile source options).tree.faults, ¬ fault.RaisedAt token) →
          Diagnostic.entriesAt token.span.start (compile source options).diagnostics = [own])) ∧
    ((compile source options).diagnostics = [] →
      ∀ token ∈ (Token.read source options.fileName).toList, token.kind ≠ .invalid) := by
  have harranged := Token.read_arranged source options.fileName
  refine ⟨fun token htoken hkind => ?_, fun hnone token htoken hkind => ?_⟩
  · obtain ⟨own, hown⟩ := Option.isSome_iff_exists.1 ((harranged.diagnosed token htoken).2 hkind)
    obtain ⟨fault, hfault, hunique, hentries⟩ :=
      Tree.entries_at_parse harranged htoken hkind hown options.globals
    refine ⟨own, hown, fun other hother hraised => ?_, fun hnone => ?_⟩
    · obtain rfl := hunique other hother hraised.1
      exact hentries.trans (if_pos hraised.1)
    · by_cases heq : fault.token = token
      · have horigin := (Tree.parse_found harranged fault hfault).origin
        rcases horigin with hraised | hplace
        · exact absurd ⟨heq, hraised.fits.syntactic⟩ (hnone fault hfault)
        · have hdiagnostic : fault.diagnostic = own := by
            rw [hplace.diagnostic_eq, heq, hown]
            rfl
          exact hentries.trans ((if_pos heq).trans (by rw [hdiagnostic]))
      · exact hentries.trans (if_neg heq)
  · obtain ⟨own, hown⟩ := Option.isSome_iff_exists.1 ((harranged.diagnosed token htoken).2 hkind)
    obtain ⟨fault, -, -, hentries⟩ :=
      Tree.entries_at_parse harranged htoken hkind hown options.globals
    have hempty : Diagnostic.entriesAt token.span.start (compile source options).diagnostics = [] :=
      by rw [hnone]; rfl
    have hboth := hempty.symm.trans hentries
    split at hboth <;> cases hboth

end LetScript
