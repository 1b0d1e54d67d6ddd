import LetScript.Script.Lower

/-!
# Names in the generated code do not collide

Different names of a program have different variables (`mangle_injective`), because the code point
of an escaped character stands between dollar signs and no hexadecimal digit is one. The names that
the generator makes up itself start with a dollar sign and a letter. A variable for a name of a
program starts with a dollar sign only if an underscore follows, and it is never a reserved word
(`mangle_collision_free`). The parameters of one function are distinct (`nodup_param_names`), as all
but the last of several with the same name are numbered.
-/

namespace LetScript.Script

/-! ## Hexadecimal digits -/

/-- The digits below sixteen have different characters. -/
theorem digit_char_injective : ∀ m < 16, ∀ n < 16, Nat.digitChar m = Nat.digitChar n → m = n := by
  decide

/-- Different numbers have different hexadecimal digits. -/
theorem hex_injective {m n : Nat} (h : Text.hex m = Text.hex n) : m = n := by
  unfold Text.hex at h
  induction m using Nat.strongRecOn generalizing n with
  | ind m ih =>
      have hlength {k : Nat} : 0 < (Nat.toDigits 16 k).length := Nat.length_toDigits_pos
      by_cases hm : m < 16 <;> by_cases hn : n < 16
      · rw [Nat.toDigits_of_lt_base hm, Nat.toDigits_of_lt_base hn] at h
        exact digit_char_injective m hm n hn (List.cons.inj h).1
      · rw [Nat.toDigits_of_lt_base hm, Nat.toDigits_of_base_le (by decide) (by omega)] at h
        have hone := congrArg List.length h
        have hpos := @hlength (n / 16)
        simp only [List.length_append, List.length_singleton] at hone
        omega
      · rw [Nat.toDigits_of_lt_base hn, Nat.toDigits_of_base_le (by decide) (by omega)] at h
        have hone := congrArg List.length h
        have hpos := @hlength (m / 16)
        simp only [List.length_append, List.length_singleton] at hone
        omega
      · rw [Nat.toDigits_of_base_le (by decide) (Nat.le_of_not_lt hm),
          Nat.toDigits_of_base_le (by decide) (Nat.le_of_not_lt hn)] at h
        obtain ⟨hfront, hlast⟩ := List.append_inj' h rfl
        have hquotient := ih (m / 16) (by omega) hfront
        have hremainder := digit_char_injective _ (Nat.mod_lt m (by decide)) _
          (Nat.mod_lt n (by decide)) (List.cons.inj hlast).1
        omega

/-- The digits of a number in base sixteen are characters of plain names. -/
theorem plain_of_mem_hex {n : Nat} {c : Char} (h : c ∈ Text.hex n) : isPlainPart c := by
  have hdigit : ∀ d < 16, isPlainPart (Nat.digitChar d) := by decide
  unfold Text.hex at h
  induction n using Nat.strongRecOn with
  | ind n ih =>
      by_cases hn : n < 16
      · rw [Nat.toDigits_of_lt_base hn, List.mem_singleton] at h
        exact h ▸ hdigit n hn
      · rw [Nat.toDigits_of_base_le (by decide) (Nat.le_of_not_lt hn), List.mem_append,
          List.mem_singleton] at h
        rcases h with h | rfl
        · exact ih (n / 16) (by omega) h
        · exact hdigit _ (Nat.mod_lt n (by decide))

/-! ## Variables for the names of a program -/

/-- Two texts are the same up to the first place of a character and after it. -/
theorem split_at_first {mark : Char} {first first' rest rest' : List Char} (hfirst : mark ∉ first)
    (hfirst' : mark ∉ first') (h : first ++ mark :: rest = first' ++ mark :: rest') :
    first = first' ∧ rest = rest' := by
  induction first generalizing first' with
  | nil =>
      cases first' with
      | nil => exact ⟨rfl, (List.cons.inj h).2⟩
      | cons c first' =>
          obtain ⟨rfl, -⟩ := List.cons.inj h
          exact absurd (List.mem_cons_self ..) hfirst'
  | cons b first ih =>
      cases first' with
      | nil =>
          obtain ⟨rfl, -⟩ := List.cons.inj h
          exact absurd (List.mem_cons_self ..) hfirst
      | cons c first' =>
          obtain ⟨rfl, htail⟩ := List.cons.inj h
          obtain ⟨rfl, hrest⟩ := ih (fun hmem => hfirst (List.mem_cons_of_mem _ hmem))
            (fun hmem => hfirst' (List.mem_cons_of_mem _ hmem)) htail
          exact ⟨rfl, hrest⟩

/-- A dollar sign is no hexadecimal digit. -/
theorem dollar_not_mem_hex (n : Nat) : '$' ∉ Text.hex n :=
  fun hmem => absurd (plain_of_mem_hex hmem) (by decide)

/-- A mangled character and what follows it can be told apart. -/
theorem mangle_char_append_injective {b c : Char} {first second : List Char}
    (h : mangleChar b ++ first = mangleChar c ++ second) : b = c ∧ first = second := by
  have hdollar {d : Char} (hd : isPlainPart d = true) : d ≠ '$' := by
    rintro rfl
    exact absurd hd (by decide)
  unfold mangleChar at h
  by_cases hb : isPlainPart b = true <;> by_cases hc : isPlainPart c = true
  · rw [if_pos hb, if_pos hc] at h
    exact List.cons.inj h
  · rw [if_pos hb, if_neg hc] at h
    exact absurd (List.cons.inj h).1 (hdollar hb)
  · rw [if_neg hb, if_pos hc] at h
    exact absurd (List.cons.inj h).1.symm (hdollar hc)
  · rw [if_neg hb, if_neg hc] at h
    simp only [List.cons_append, List.append_assoc, List.nil_append] at h
    obtain ⟨hcode, hrest⟩ := split_at_first (dollar_not_mem_hex _) (dollar_not_mem_hex _)
      (List.cons.inj h).2
    exact ⟨Char.toNat_inj.1 (hex_injective hcode), hrest⟩

/-- A mangled character is not left out. -/
theorem mangle_char_ne_nil (c : Char) : mangleChar c ≠ [] := by
  unfold mangleChar
  split
  · exact List.cons_ne_nil _ _
  · exact List.cons_ne_nil _ _

/-- Different texts are mangled differently. -/
theorem flat_map_mangle_char_injective {first second : List Char}
    (h : first.flatMap mangleChar = second.flatMap mangleChar) : first = second := by
  induction first generalizing second with
  | nil =>
      cases second with
      | nil => rfl
      | cons c second =>
          exact absurd (List.append_eq_nil_iff.1 h.symm).1 (mangle_char_ne_nil c)
  | cons b first ih =>
      cases second with
      | nil => exact absurd (List.append_eq_nil_iff.1 h).1 (mangle_char_ne_nil b)
      | cons c second =>
          obtain ⟨rfl, hrest⟩ := mangle_char_append_injective h
          rw [ih hrest]

/-- The first two characters of a name. They tell the kinds of names apart. -/
def mark (name : String) : List Char := name.toList.take 2

/-- A name is kept or written after a dollar sign and an underscore. -/
theorem mangle_cases (name : String) :
    (mangle name = name ∧ isPlain name ∧ name ∉ reservedWords) ∨
      (mangle name).toList = '$' :: '_' :: name.toList.flatMap mangleChar := by
  unfold mangle
  split
  next hkept =>
    simp only [Bool.and_eq_true, Bool.not_eq_true', List.contains_eq_mem,
      decide_eq_false_iff_not] at hkept
    exact .inl ⟨rfl, hkept⟩
  next => exact .inr (String.toList_ofList ..)

/-- A plain name starts with a character that may start one, and others follow. -/
theorem exists_cons_of_plain {name : String} (h : isPlain name) :
    ∃ c rest, name.toList = c :: rest ∧ isPlainStart c ∧ ∀ d ∈ rest, isPlainPart d := by
  unfold isPlain at h
  split at h
  next => cases h
  next c rest heq =>
    obtain ⟨hstart, hrest⟩ := Bool.and_eq_true_iff.1 h
    exact ⟨c, rest, heq, hstart, List.all_eq_true.1 hrest⟩

/-- A plain name does not start with a dollar sign. -/
theorem head_of_plain {name : String} (h : isPlain name) : name.toList.head? ≠ some '$' := by
  obtain ⟨c, rest, hname, hstart, -⟩ := exists_cons_of_plain h
  rw [hname]
  rintro ⟨⟩
  exact absurd hstart (by decide)

/-- Different names of a program have different variables. -/
theorem mangle_injective {first second : String} (h : mangle first = mangle second) :
    first = second := by
  rcases mangle_cases first with ⟨hfirst, hplain, -⟩ | hfirst <;>
    rcases mangle_cases second with ⟨hsecond, hplain', -⟩ | hsecond
  · rw [← hfirst, h, hsecond]
  · rw [← h, hfirst] at hsecond
    exact absurd (by rw [hsecond]; rfl) (head_of_plain hplain)
  · rw [h, hsecond] at hfirst
    exact absurd (by rw [hfirst]; rfl) (head_of_plain hplain')
  · rw [h, hsecond] at hfirst
    have hrest := (List.cons.inj (List.cons.inj hfirst).2).2
    exact String.toList_inj.1 (flat_map_mangle_char_injective hrest).symm

/-- The variable for a name starts with a dollar sign only if an underscore follows. -/
theorem mark_mangle (name : String) {c : Char} (hc : c ≠ '_') :
    mark (mangle name) ≠ ['$', c] := by
  unfold mark
  rcases mangle_cases name with ⟨hname, hplain, -⟩ | hname
  · rw [hname]
    intro heq
    have hhead : name.toList.head? = some '$' := by
      have htake : (name.toList.take 2).head? = name.toList.head? := List.head?_take
      rw [← htake, heq]
      rfl
    exact head_of_plain hplain hhead
  · rw [hname]
    intro heq
    exact hc (List.cons.inj (List.cons.inj heq).2).1.symm

/-- The variable for a name is no reserved word. -/
theorem mangle_not_reserved (name : String) : mangle name ∉ reservedWords := by
  have hreserved : ∀ word ∈ reservedWords, mark word ≠ ['$', '_'] := by decide
  rcases mangle_cases name with ⟨hname, -, hmem⟩ | hname
  · rwa [hname]
  · intro hmem
    refine hreserved _ hmem ?_
    rw [mark, hname]
    rfl

/-- The variable for a name is made of letters, digits, underscores and dollar signs, and it does
not start with a digit. -/
theorem mangle_chars (name : String) :
    ∃ c rest, (mangle name).toList = c :: rest ∧ (isPlainStart c ∨ c = '$') ∧
      ∀ d ∈ rest, isPlainPart d ∨ d = '$' := by
  have hpart {c d : Char} (hd : d ∈ mangleChar c) : isPlainPart d ∨ d = '$' := by
    unfold mangleChar at hd
    split at hd
    next hplain => exact .inl (List.mem_singleton.1 hd ▸ hplain)
    next =>
      simp only [List.cons_append, List.mem_cons, List.mem_append, List.not_mem_nil,
        or_false] at hd
      rcases hd with rfl | hd | rfl
      · exact .inr rfl
      · exact .inl (plain_of_mem_hex hd)
      · exact .inr rfl
  rcases mangle_cases name with ⟨hkept, hplain, -⟩ | hlist
  · rw [hkept]
    obtain ⟨c, rest, hname, hstart, hrest⟩ := exists_cons_of_plain hplain
    exact ⟨c, rest, hname, .inl hstart, fun d hd => .inl (hrest d hd)⟩
  · refine ⟨'$', _, hlist, .inr rfl, List.forall_mem_cons.2 ⟨.inl rfl, fun d hd => ?_⟩⟩
    obtain ⟨c, -, hd⟩ := List.mem_flatMap.1 hd
    exact hpart hd

/-- A character that may start a plain name may continue one, and it is no digit. -/
theorem plain_start_cases {c : Char} (h : isPlainStart c) : isPlainPart c ∧ c.isDigit = false := by
  have hdigits : ∀ n < 58, 48 ≤ n → isPlainStart (Char.ofNat n) = false := by decide
  refine ⟨?_, Bool.eq_false_iff.2 fun hdigit => ?_⟩
  · unfold isPlainStart at h
    unfold isPlainPart Char.isAlphanum
    rcases Bool.or_eq_true_iff.1 h with halpha | hmark
    · rw [halpha]
      rfl
    · rw [hmark, Bool.or_true]
  · have hbounds : 48 ≤ c.toNat ∧ c.toNat ≤ 57 := by
      simpa [Char.isDigit, UInt32.le_iff_toNat_le] using hdigit
    have hstart := hdigits c.toNat (by omega) hbounds.1
    rw [Char.ofNat_toNat, h] at hstart
    cases hstart

/-! ## Names made up by the generator -/

@[simp] theorem mark_scope_variable (scope : Nat) : mark (scopeVariable scope) = ['$', 's'] := by
  rw [mark, scopeVariable, String.toList_append]
  rfl

@[simp] theorem mark_loose_variable (node : Nat) : mark (looseVariable node) = ['$', 'l'] := by
  rw [mark, looseVariable, String.toList_append]
  rfl

@[simp] theorem mark_unused_param (n : Nat) : mark (unusedParam n) = ['$', 'u'] := by
  rw [mark, unusedParam, String.toList_append]
  rfl

/-- Different numbers have different decimal digits. -/
theorem repr_injective {m n : Nat} (h : m.repr = n.repr) : m = n := by
  rw [Nat.repr_eq_ofList_toDigits, Nat.repr_eq_ofList_toDigits, String.ofList_inj] at h
  rw [← @Nat.ofDigitChars_ten_toDigits m, h, Nat.ofDigitChars_ten_toDigits]

/-- Different scopes have different variables. -/
theorem scope_variable_injective {scope scope' : Nat}
    (h : scopeVariable scope = scopeVariable scope') : scope = scope' :=
  repr_injective ((String.append_right_inj _).1 h)

/-- Different numbers give different unused parameters. -/
theorem unused_param_injective {m n : Nat} (h : unusedParam m = unusedParam n) : m = n :=
  repr_injective ((String.append_right_inj _).1 h)

/-- Names whose first two characters differ are different. -/
theorem ne_of_mark {first second : String} (h : mark first ≠ mark second) : first ≠ second :=
  fun heq => h (heq ▸ rfl)

/-- A name that the generator makes up. -/
inductive MadeUp : String → Prop where
  | library : MadeUp libraryName
  | globals : MadeUp globalsName
  | scope (scope : Nat) : MadeUp (scopeVariable scope)
  | loose (node : Nat) : MadeUp (looseVariable node)
  | unused (n : Nat) : MadeUp (unusedParam n)

/-- A name that the generator makes up starts with a dollar sign and no underscore follows. -/
theorem MadeUp.mark_eq {name : String} (h : MadeUp name) : ∃ c ≠ '_', mark name = ['$', c] := by
  cases h with
  | library => exact ⟨'r', by decide, rfl⟩
  | globals => exact ⟨'g', by decide, rfl⟩
  | scope scope => exact ⟨'s', by decide, mark_scope_variable scope⟩
  | loose node => exact ⟨'l', by decide, mark_loose_variable node⟩
  | unused n => exact ⟨'u', by decide, mark_unused_param n⟩

/-- Mangling names is free of collisions. Different names of a program have different variables. The
variable for a name is not empty, has no other characters than letters, digits, underscores and
dollar signs, does not start with a digit, and is neither a reserved word nor a name that the
generator makes up. -/
theorem mangle_collision_free :
    Function.Injective mangle ∧
      ∀ name, mangle name ≠ "" ∧
        (∀ c ∈ (mangle name).toList, c.isAlphanum ∨ c = '_' ∨ c = '$') ∧
        (∀ c, (mangle name).toList.head? = some c → c.isDigit = false) ∧
        mangle name ∉ reservedWords ∧ ¬ MadeUp (mangle name) := by
  refine ⟨fun _ _ => mangle_injective, fun name => ?_⟩
  obtain ⟨c, rest, hname, hstart, hrest⟩ := mangle_chars name
  have hfirst : (isPlainPart c ∨ c = '$') ∧ c.isDigit = false := by
    rcases hstart with hstart | rfl
    · obtain ⟨hplain, hdigit⟩ := plain_start_cases hstart
      exact ⟨.inl hplain, hdigit⟩
    · exact ⟨.inr rfl, rfl⟩
  refine ⟨?_, ?_, ?_, mangle_not_reserved name, ?_⟩
  · intro hempty
    rw [hempty] at hname
    cases hname
  · have hall : ∀ d ∈ c :: rest, isPlainPart d ∨ d = '$' :=
      List.forall_mem_cons.2 ⟨hfirst.1, hrest⟩
    intro d hd
    simpa [isPlainPart, or_assoc] using hall d (hname ▸ hd)
  · intro d hd
    rw [hname] at hd
    exact Option.some.inj hd ▸ hfirst.2
  · intro hmade
    obtain ⟨d, hd, hmark⟩ := hmade.mark_eq
    exact mark_mangle name hd hmark

/-! ## Names of parameters -/

namespace Naming

variable {α β : Type} {P : α → Prop} {Q : β → Prop}

/-- Whatever names were given out before, a computation gives a value with a property. -/
def Yields (P : α → Prop) (naming : Naming α) : Prop := ∀ n, P (naming n).1

/-- A value without a name. -/
theorem Yields.pure {value : α} (h : P value) : Yields P (Pure.pure value : Naming α) :=
  fun _ => h

/-- A computation after another. -/
theorem Yields.bind {naming : Naming α} {next : α → Naming β} (h : naming.Yields P)
    (hnext : ∀ value, P value → (next value).Yields Q) : Yields Q (naming >>= next) :=
  fun n => hnext _ (h n) (naming n).2

end Naming

section Params

variable {name : String} {names : List String} {n : Nat}

/-- The names of parameters after the first are those of the others. The first is kept unless
another one has its name. -/
theorem param_names_cons (name : String) (names : List String) (n : Nat) :
    (name ∈ names ∧ (paramNames (name :: names) n).1 =
        unusedParam n :: (paramNames names (n + 1)).1) ∨
      (name ∉ names ∧
        (paramNames (name :: names) n).1 = mangle name :: (paramNames names n).1) := by
  by_cases hname : name ∈ names
  · have hcontains : names.contains name := List.contains_iff_mem.2 hname
    refine .inl ⟨hname, ?_⟩
    simp only [paramNames, hcontains, if_true]
    rfl
  · have hcontains : names.contains name = false := by simpa using hname
    refine .inr ⟨hname, ?_⟩
    simp only [paramNames, hcontains, Bool.false_eq_true, if_false]
    rfl

/-- A parameter is a name of the program, or it is numbered and never used. -/
theorem of_mem_param_names {chosen : String} (h : chosen ∈ (paramNames names n).1) :
    (∃ name ∈ names, chosen = mangle name) ∨ ∃ m, n ≤ m ∧ chosen = unusedParam m := by
  induction names generalizing n with
  | nil => cases h
  | cons name names ih =>
      rcases param_names_cons name names n with ⟨-, heq⟩ | ⟨-, heq⟩ <;> rw [heq] at h <;>
        rcases List.mem_cons.1 h with rfl | h
      · exact .inr ⟨n, Nat.le_refl n, rfl⟩
      · rcases ih h with ⟨other, hother, hchosen⟩ | ⟨m, hm, hchosen⟩
        · exact .inl ⟨other, List.mem_cons_of_mem _ hother, hchosen⟩
        · exact .inr ⟨m, by omega, hchosen⟩
      · exact .inl ⟨name, List.mem_cons_self .., rfl⟩
      · rcases ih h with ⟨other, hother, hchosen⟩ | hnumbered
        · exact .inl ⟨other, List.mem_cons_of_mem _ hother, hchosen⟩
        · exact .inr hnumbered

/-- The variable of a name of the program is not a parameter that is never used. -/
theorem mangle_ne_unused_param (name : String) (m : Nat) : mangle name ≠ unusedParam m :=
  ne_of_mark (by rw [mark_unused_param]; exact mark_mangle name (by decide))

/-- A name that no parameter declares is no parameter. -/
theorem mangle_not_mem_param_names (h : name ∉ names) : mangle name ∉ (paramNames names n).1 := by
  intro hmem
  rcases of_mem_param_names hmem with ⟨other, hother, hchosen⟩ | ⟨m, -, hchosen⟩
  · exact h (mangle_injective hchosen ▸ hother)
  · exact mangle_ne_unused_param name m hchosen

/-- The parameters of a function are distinct. -/
theorem nodup_param_names (names : List String) (n : Nat) : (paramNames names n).1.Nodup := by
  induction names generalizing n with
  | nil => exact List.nodup_nil
  | cons name names ih =>
      rcases param_names_cons name names n with ⟨-, heq⟩ | ⟨hname, heq⟩ <;>
        rw [heq, List.nodup_cons] <;> refine ⟨fun hmem => ?_, ih _⟩
      · rcases of_mem_param_names hmem with ⟨other, -, hchosen⟩ | ⟨m, hm, hchosen⟩
        · exact mangle_ne_unused_param other n hchosen.symm
        · have := unused_param_injective hchosen
          omega
      · exact mangle_not_mem_param_names hname hmem

end Params

end LetScript.Script
