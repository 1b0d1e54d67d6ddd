import LetScript.Proofs.JavaScript.Scoping
import LetScript.Proofs.Parser.Identities
import LetScript.Proofs.Scope.Owners
import LetScript.Proofs.Script.Image
import LetScript.Proofs.Script.Names

/-!
# Names in the generated code are not captured

The binder finds declarations along a chain of scopes, while a name of the generated code refers to
the innermost function around it that has a parameter or variable of this name. `Tree.image_sound`
shows that the two agree. Going down a tree, the environment and the functions around the code grow
together, and the invariant is that each declaration of the environment is reached by the name that
the code uses for it (`Sees`).
-/

namespace LetScript

open JavaScript Script

/-! ## Names of parameters -/

namespace Script

variable {name : String} {names : List String} {n : Nat}

/-- The variable of a name is the last parameter that declares the name. -/
theorem find_param (owner : NodeId) {declared : List (NodeId × String)} {name : String} (n : Nat)
    (h : name ∈ declared.map (·.2)) :
    ∃ index node, (paramNames (declared.map (·.2)) n).1.idxOf? (mangle name) = some index ∧
      declared[index]? = some (node, name) ∧
      ∀ env : Environment, env.declareAll owner .param declared name =
        some ⟨.param, owner, node⟩ := by
  induction declared generalizing n with
  | nil => cases h
  | cons entry declared ih =>
      obtain ⟨node, first⟩ := entry
      rw [List.map_cons]
      by_cases hlater : name ∈ declared.map (·.2)
      · have hrest {chosen : String} {m : Nat} (hne : chosen ≠ mangle name) :
            ∃ index node', (chosen :: (paramNames (declared.map (·.2)) m).1).idxOf?
                (mangle name) = some index ∧
              ((node, first) :: declared)[index]? = some (node', name) ∧
              ∀ env : Environment, env.declareAll owner .param ((node, first) :: declared) name =
                some ⟨.param, owner, node'⟩ := by
          obtain ⟨index, node', hindex, hdeclared, henv⟩ := ih m hlater
          refine ⟨index + 1, node', ?_, hdeclared, fun env => henv _⟩
          rw [List.idxOf?_cons, if_neg (by simpa using hne), hindex]
          rfl
        rcases param_names_cons first (declared.map (·.2)) n with ⟨-, heq⟩ | ⟨hfirst, heq⟩
        · rw [heq]
          exact hrest (mangle_ne_unused_param name n).symm
        · rw [heq]
          refine hrest fun hsame => hfirst ?_
          rw [mangle_injective hsame]
          exact hlater
      · have hname : name = first := (List.mem_cons.1 h).resolve_right hlater
        subst hname
        rcases param_names_cons name (declared.map (·.2)) n with ⟨hmem, -⟩ | ⟨-, heq⟩
        · exact absurd hmem hlater
        · refine ⟨0, node, ?_, rfl, fun env => ?_⟩
          · rw [heq, List.idxOf?_cons, if_pos (by simp)]
          · exact (Environment.declare_all_of_not_mem _ owner .param hlater).trans
              (env.declare_self ..)

/-- Names that no parameter can have: reserved words, and names that start with a dollar sign and a
letter that marks neither a name of the program nor an unused parameter. -/
def Kept (name : String) : Prop :=
  name ∈ reservedWords ∨ ∃ c, mark name = ['$', c] ∧ c ≠ '_' ∧ c ≠ 'u'

/-- A kept name is no parameter. -/
theorem Kept.not_mem_param_names {kept : String} (h : Kept kept) :
    kept ∉ (paramNames names n).1 := by
  have hmangle (other : String) : kept ≠ mangle other := by
    rcases h with hreserved | ⟨c, hmark, hc, -⟩
    · rintro rfl
      exact mangle_not_reserved other hreserved
    · exact ne_of_mark (hmark ▸ (mark_mangle other hc).symm)
  have hunused (m : Nat) : kept ≠ unusedParam m := by
    rcases h with hreserved | ⟨c, hmark, -, hc⟩
    · have hwords : ∀ word ∈ reservedWords, mark word ≠ ['$', 'u'] := by decide
      exact ne_of_mark (by rw [mark_unused_param]; exact hwords kept hreserved)
    · refine ne_of_mark ?_
      rw [hmark, mark_unused_param]
      simpa using hc
  intro hmem
  rcases of_mem_param_names hmem with ⟨other, -, hchosen⟩ | ⟨m, -, hchosen⟩
  · exact hmangle other hchosen
  · exact hunused m hchosen

/-- The variable of a scope is kept. -/
theorem kept_scope_variable (scope : Nat) : Kept (scopeVariable scope) :=
  .inr ⟨'s', mark_scope_variable scope, by decide, by decide⟩

/-- The first two characters of the variable of a let. -/
theorem mark_record_variable (bindings : Bindings) (id : NodeId) :
    mark (recordVariable bindings id) = ['$', 's'] ∨
      mark (recordVariable bindings id) = ['$', 'l'] := by
  unfold recordVariable
  split
  · exact .inl (mark_scope_variable _)
  · exact .inr (mark_loose_variable _)

/-- The variable of a let is the variable of a scope only if this is its scope. -/
theorem scope_of_record_variable {bindings : Bindings} {id : NodeId} {scope : ScopeId}
    (h : scopeVariable scope = recordVariable bindings id) :
    bindings.scopeOf? id = some scope := by
  unfold recordVariable at h
  split at h
  next found hfound => rw [hfound, scope_variable_injective h]
  next => exact absurd h (ne_of_mark (by rw [mark_scope_variable, mark_loose_variable]; decide))

/-- The variable of a let is not the variable of a name of the program. -/
theorem mangle_ne_record_variable (bindings : Bindings) (id : NodeId) (name : String) :
    mangle name ≠ recordVariable bindings id := by
  refine ne_of_mark ?_
  rcases mark_record_variable bindings id with hmark | hmark <;> rw [hmark] <;>
    exact mark_mangle name (by decide)

/-- The function around the whole program. Its parameter holds the names of the host, and its
variable the support library. -/
def programFrame : Frame Origin := ⟨.program, [globalsName], [libraryName]⟩

/-- What the generated code takes from JavaScript by its own name. -/
def builtins : List String := ["Error", "Infinity", "NaN"]

/-- The names that generated code uses and that belong to no declaration. -/
def supportNames : List String := globalsName :: libraryName :: builtins

/-- The names that belong to no declaration are kept. -/
theorem kept_of_mem_support_names (h : name ∈ supportNames) : Kept name := by
  simp only [supportNames, builtins, List.mem_cons, List.not_mem_nil, or_false] at h
  rcases h with rfl | rfl | rfl | rfl | rfl
  · exact .inr ⟨'g', by decide, by decide, by decide⟩
  · exact .inr ⟨'r', by decide, by decide, by decide⟩
  · exact .inl (by decide)
  · exact .inl (by decide)
  · exact .inl (by decide)

/-- The variable of a let is none of the names that belong to no declaration. -/
theorem ne_record_variable_of_mem_support_names (bindings : Bindings) (id : NodeId)
    (h : name ∈ supportNames) : name ≠ recordVariable bindings id := by
  have hmarks : ∀ name ∈ supportNames, mark name ≠ ['$', 's'] ∧ mark name ≠ ['$', 'l'] := by decide
  refine ne_of_mark ?_
  rcases mark_record_variable bindings id with hmark | hmark <;> rw [hmark]
  · exact (hmarks name h).1
  · exact (hmarks name h).2

end Script

/-! ## Names that reach their declarations -/

/-- A node is one of the nodes of a tree. -/
def Tree.Has (tree : Tree) (node : Node) : Prop := ∃ depth, (depth, node) ∈ tree.nodes

namespace Script

/-- What the names in the code of a tree refer to. A reference to a parameter is the parameter at
the same place of the function for the node that opens the scope, a reference to a definition goes
through the variable of the scope, which the function for its let declares, and a reference to a
global goes through the parameter of the whole program. The support library is the variable of the
whole program, and nothing in the code hides what is taken from JavaScript. -/
inductive Refers (root : Tree) (bindings : Bindings) : Occurrence Origin → Prop
  | param {id owner node : NodeId} {scope : ScopeId} {token fnToken arrow : Token}
      {params : List Param} {body : Tree} {index : Nat} {frames : List (Frame Origin)} :
      root.Has (.tree (.identifier id token)) →
      bindings.resolution? id = some (.bound ⟨token.value, .param, scope, some node⟩) →
      root.Has (.tree (.function owner fnToken params arrow body)) →
      bindings.Opens owner scope →
      (params.filterMap Param.declared?)[index]? = some (node, token.value) →
      resolve (mangle token.value) frames = some (.param (.node owner) index) →
      Refers root bindings ⟨.node id, mangle token.value, frames⟩
  | definition {id owner node : NodeId} {scope : ScopeId} {token letToken inToken : Token}
      {items : List Item} {body : Tree} {frames : List (Frame Origin)} :
      root.Has (.tree (.identifier id token)) →
      bindings.resolution? id = some (.bound ⟨token.value, .definition, scope, some node⟩) →
      root.Has (.tree (.letIn owner letToken items inToken body)) →
      bindings.Opens owner scope →
      (node, token.value) ∈ items.filterMap Item.declared? →
      resolve (scopeVariable scope) frames = some (.var (.node owner)) →
      Refers root bindings ⟨.node id, scopeVariable scope, frames⟩
  | global {id : NodeId} {token : Token} {frames : List (Frame Origin)} :
      root.Has (.tree (.identifier id token)) →
      bindings.resolution? id = some (.bound ⟨token.value, .global, 0, none⟩) →
      resolve globalsName frames = some (.param .program 0) →
      Refers root bindings ⟨.node id, globalsName, frames⟩
  | library {frames : List (Frame Origin)} :
      resolve libraryName frames = some (.var .program) →
      Refers root bindings ⟨.support, libraryName, frames⟩
  | builtin {name : String} {frames : List (Frame Origin)} :
      name ∈ builtins → resolve name frames = none → Refers root bindings ⟨.support, name, frames⟩

variable {root : Tree} {bindings : Bindings} {env : Environment} {frames : List (Frame Origin)}
  {frame : Frame Origin} {name : String}

/-- The name that generated code uses for a declaration reaches the declaration. -/
def Reaches (root : Tree) (bindings : Bindings) (frames : List (Frame Origin)) (name : String) :
    Declaration → Prop
  | ⟨.param, owner, node⟩ => ∃ fnToken params arrow body index,
    root.Has (.tree (.function owner fnToken params arrow body)) ∧
      (params.filterMap Param.declared?)[index]? = some (node, name) ∧
      resolve (mangle name) frames = some (.param (.node owner) index)
  | ⟨.definition, owner, node⟩ => ∃ letToken items inToken body,
    root.Has (.tree (.letIn owner letToken items inToken body)) ∧
      (node, name) ∈ items.filterMap Item.declared? ∧
      ∀ scope, bindings.Opens owner scope →
        resolve (scopeVariable scope) frames = some (.var (.node owner))
  | ⟨.global, _, _⟩ => False

/-- Inside some functions, what the environment declares and what belongs to no declaration is
reached by its name. -/
structure Sees (root : Tree) (bindings : Bindings) (env : Environment)
    (frames : List (Frame Origin)) : Prop where
  reaches : ∀ name declaration, env name = some declaration →
    Reaches root bindings frames name declaration
  globals : resolve globalsName frames = some (.param .program 0)
  library : resolve libraryName frames = some (.var .program)
  builtin : ∀ name ∈ builtins, resolve name frames = none

/-- In the function around the whole program nothing is declared. -/
theorem sees_program (root : Tree) (bindings : Bindings) :
    Sees root bindings .empty [programFrame] := by
  refine ⟨fun _ _ h => (by cases h), rfl, rfl, ?_⟩
  intro name hname
  simp only [builtins, List.mem_cons, List.not_mem_nil, or_false] at hname
  rcases hname with rfl | rfl | rfl <;> rfl

/-- A declaration is reached from inside a function that does not hide it. -/
theorem Reaches.pass {declaration : Declaration}
    (h : Reaches root bindings frames name declaration)
    (hname : frame.find? (mangle name) = none)
    (hscope : ∀ scope, bindings.Opens declaration.owner scope →
      frame.find? (scopeVariable scope) = none ∨
        frame.find? (scopeVariable scope) = some (.var (.node declaration.owner))) :
    Reaches root bindings (frame :: frames) name declaration := by
  obtain ⟨kind, owner, node⟩ := declaration
  cases kind with
  | global => exact h
  | param =>
      obtain ⟨fnToken, params, arrow, body, index, hhas, hdeclared, hresolve⟩ := h
      refine ⟨fnToken, params, arrow, body, index, hhas, hdeclared, ?_⟩
      rw [resolve_of_not_find hname, hresolve]
  | definition =>
      obtain ⟨letToken, items, inToken, body, hhas, hdeclared, hresolve⟩ := h
      refine ⟨letToken, items, inToken, body, hhas, hdeclared, fun scope hopens => ?_⟩
      rcases hscope scope hopens with hnone | hsome
      · rw [resolve_of_not_find hnone, hresolve scope hopens]
      · exact resolve_of_find hsome

/-- The names that belong to no declaration are reached from inside a function that does not hide
them. -/
theorem Sees.inside {inner : Environment} (h : Sees root bindings env frames)
    (hsupport : ∀ name ∈ supportNames, frame.find? name = none)
    (hreaches : ∀ name declaration, inner name = some declaration →
      Reaches root bindings (frame :: frames) name declaration) :
    Sees root bindings inner (frame :: frames) where
  reaches := hreaches
  globals := (resolve_of_not_find (hsupport _ (by decide))).trans h.globals
  library := (resolve_of_not_find (hsupport _ (by decide))).trans h.library
  builtin := by
    intro name hname
    have hmem : name ∈ supportNames := List.mem_cons_of_mem _ (List.mem_cons_of_mem _ hname)
    rw [resolve_of_not_find (hsupport name hmem)]
    exact h.builtin name hname

/-- A function without parameters and variables hides nothing. -/
theorem Sees.unnamed (h : Sees root bindings env frames) (tag : Origin) :
    Sees root bindings env (⟨tag, [], []⟩ :: frames) := by
  have hfind (name : String) : (⟨tag, [], []⟩ : Frame Origin).find? name = none :=
    find_eq_none List.not_mem_nil List.not_mem_nil
  exact h.inside (fun name _ => hfind name) fun name declaration hdeclared =>
    (h.reaches name declaration hdeclared).pass (hfind _) fun _ _ => .inl (hfind _)

/-- In a function its parameters are reached by their names. -/
theorem Sees.function {id : NodeId} {fnToken arrow : Token} {params : List Param} {body : Tree}
    (h : Sees root bindings env frames)
    (hhas : root.Has (.tree (.function id fnToken params arrow body))) (n : Nat) :
    Sees root bindings (env.declareParams id params)
      (⟨.node id, (paramNames ((params.filterMap Param.declared?).map (·.2)) n).1, []⟩ ::
        frames) := by
  have hkept {name : String} (hname : Kept name) :
      (⟨.node id, (paramNames ((params.filterMap Param.declared?).map (·.2)) n).1, []⟩ :
        Frame Origin).find? name = none :=
    find_eq_none hname.not_mem_param_names List.not_mem_nil
  refine h.inside (fun name hname => hkept (kept_of_mem_support_names hname)) ?_
  intro name declaration hdeclared
  rw [env.declare_params_eq] at hdeclared
  by_cases hname : name ∈ (params.filterMap Param.declared?).map (·.2)
  · obtain ⟨index, node, hindex, hparam, henv⟩ := find_param id n hname
    rw [henv env] at hdeclared
    obtain rfl := Option.some.inj hdeclared
    refine ⟨fnToken, params, arrow, body, index, hhas, hparam, resolve_of_find ?_⟩
    rw [Frame.find?, if_neg List.not_mem_nil, hindex]
    rfl
  · rw [env.declare_all_of_not_mem _ _ hname] at hdeclared
    refine (h.reaches name declaration hdeclared).pass ?_ ?_
    · exact find_eq_none (mangle_not_mem_param_names hname) List.not_mem_nil
    · exact fun scope _ => .inl (hkept (kept_scope_variable scope))

/-- In the function of a let its definitions are reached through its variable. -/
theorem Sees.let_in {id : NodeId} {letToken inToken : Token} {items : List Item} {body : Tree}
    (h : Sees root bindings env frames) (hrecorded : bindings.Recorded)
    (hhas : root.Has (.tree (.letIn id letToken items inToken body))) :
    Sees root bindings (env.declareItems id items)
      (⟨.node id, [], [recordVariable bindings id]⟩ :: frames) := by
  have hother {name : String} (hname : name ≠ recordVariable bindings id) :
      (⟨.node id, [], [recordVariable bindings id]⟩ : Frame Origin).find? name = none :=
    find_eq_none List.not_mem_nil (mt List.mem_singleton.1 hname)
  have hself : (⟨.node id, [], [recordVariable bindings id]⟩ : Frame Origin).find?
      (recordVariable bindings id) = some (.var (.node id)) :=
    if_pos (List.mem_singleton.2 rfl)
  refine h.inside
    (fun name hname => hother (ne_record_variable_of_mem_support_names bindings id hname)) ?_
  intro name declaration hdeclared
  rw [env.declare_items_eq] at hdeclared
  rcases env.declare_all_cases id .definition (items.filterMap Item.declared?) name with
    heq | ⟨node, hmem, heq⟩ <;> rw [heq] at hdeclared
  · refine (h.reaches name declaration hdeclared).pass
      (hother (mangle_ne_record_variable bindings id name)) fun scope hopens => ?_
    by_cases hscope : scopeVariable scope = recordVariable bindings id
    · -- the variable is that of this let, which is then the owner of the scope
      refine .inr ?_
      rw [hscope, hself,
        (hrecorded id scope (scope_of_record_variable hscope)).unique hopens]
    · exact .inl (hother hscope)
  · obtain rfl := Option.some.inj hdeclared
    refine ⟨letToken, items, inToken, body, hhas, hmem, fun scope hopens => resolve_of_find ?_⟩
    have hvariable : recordVariable bindings id = scopeVariable scope := by
      rw [recordVariable, hopens.1]
    rw [← hvariable, hself]

/-! ## The code of a tree -/

/-- Statements that throw errors and return a value declare no variables. -/
theorem declared_thrown (failures : List String) (value : JavaScript.Expr Origin) :
    (failures.map (thrown Origin.support) ++ [Statement.returns value]).filterMap
      Statement.declared? = [] := by
  induction failures with
  | nil => rfl
  | cons message failures ih => exact ih

/-- The names of an expression made for a tree are right. -/
abbrev Sound (root : Tree) (bindings : Bindings) (frames : List (Frame Origin))
    (expr : JavaScript.Expr Origin) : Prop :=
  expr.Sound (Refers root bindings) frames

namespace Sees

/-- The support library is reached. -/
theorem sound_library (h : Sees root bindings env frames) (name : String) :
    Sound root bindings frames (Script.library .support name) :=
  JavaScript.Expr.sound_variable.2 (Refers.library h.library)

/-- What is taken from JavaScript is reached. -/
theorem sound_builtin (h : Sees root bindings env frames) (hname : name ∈ builtins) :
    Sound root bindings frames (.variable .support name) :=
  JavaScript.Expr.sound_variable.2 (Refers.builtin hname (h.builtin name hname))

/-- Statements that throw errors before other statements. -/
theorem sound_thrown (h : Sees root bindings env frames) (failures : List String)
    {statements : List (Statement Origin)}
    (hstatements : Statement.ListSound (Refers root bindings) frames statements) :
    Statement.ListSound (Refers root bindings) frames
      (failures.map (thrown .support) ++ statements) := by
  induction failures with
  | nil => exact hstatements
  | cons message failures ih =>
      have herror : Refers root bindings ⟨.support, "Error", frames⟩ :=
        .builtin (by decide) (h.builtin _ (by decide))
      simpa [thrown, herror] using ih

/-- An expression that throws an error. -/
theorem sound_failing (h : Sees root bindings env frames) (message : String) :
    Sound root bindings frames (failing .support message) := by
  have hbody := (h.unnamed .support).sound_thrown [message] Statement.list_sound_nil
  exact JavaScript.Expr.sound_call.2
    ⟨JavaScript.Expr.sound_function.2 ⟨List.nodup_nil, hbody⟩, JavaScript.Expr.list_sound_nil⟩

/-- A number. -/
theorem sound_numeric (h : Sees root bindings env frames) (value : Binary64) :
    Sound root bindings frames (numeric .support value) := by
  unfold numeric
  split
  · exact h.sound_builtin (by decide)
  · split
    · exact h.sound_builtin (by decide)
    · exact JavaScript.Expr.sound_number

/-- A record of definitions. -/
theorem sound_record_of (h : Sees root bindings env frames)
    {entries : List (JavaScript.Expr Origin)}
    (hentries : JavaScript.Expr.ListSound (Refers root bindings) frames entries) :
    Sound root bindings frames (recordOf .support entries) := by
  have hlibrary := h.sound_library "record"
  simp [Sound, recordOf, hlibrary, hentries]

/-- A value that is returned after some errors. -/
theorem sound_returned (h : Sees root bindings env frames) (failures : List String)
    {value : JavaScript.Expr Origin} (hvalue : Sound root bindings frames value) :
    Statement.ListSound (Refers root bindings) frames
      (failures.map (thrown .support) ++ [.returns value]) := by
  refine h.sound_thrown failures ?_
  exact Statement.list_sound_cons.2 ⟨hvalue, Statement.list_sound_nil⟩

/-- A function that is called at once. -/
theorem sound_called {tag : Origin} {body : List (Statement Origin)}
    (hbody : Statement.ListSound (Refers root bindings) (.ofFunction tag [] body :: frames) body) :
    Sound root bindings frames (called tag body) :=
  JavaScript.Expr.sound_call.2
    ⟨JavaScript.Expr.sound_function.2 ⟨List.nodup_nil, hbody⟩, JavaScript.Expr.list_sound_nil⟩

/-- A record of definitions after some errors. -/
theorem sound_faulty_record_of (h : Sees root bindings env frames) (failures : List String)
    {entries : List (JavaScript.Expr Origin)}
    (hentries : JavaScript.Expr.ListSound (Refers root bindings)
      (⟨.support, [], []⟩ :: frames) entries) :
    Sound root bindings frames (faultyRecordOf .support failures entries) := by
  have hinside := h.unnamed .support
  refine sound_called ?_
  rw [Frame.ofFunction, declared_thrown]
  exact hinside.sound_returned failures (hinside.sound_record_of hentries)

/-- A function with parameters. -/
theorem sound_function_of {inner : Environment} {tag : Origin} {params : List String}
    {body : JavaScript.Expr Origin} (h : Sees root bindings env frames)
    (hinside : Sees root bindings inner (⟨tag, params, []⟩ :: frames)) (curried : Bool)
    (failures : List String) (hparams : params.Nodup)
    (hbody : Sound root bindings (⟨tag, params, []⟩ :: frames) body) :
    Sound root bindings frames (functionOf .support curried tag params failures body) := by
  have hfunction : Sound root bindings frames
      (.function tag params (failures.map (thrown .support) ++ [.returns body])) := by
    refine JavaScript.Expr.sound_function.2 ⟨hparams, ?_⟩
    rw [Frame.ofFunction, declared_thrown]
    exact hinside.sound_returned failures hbody
  cases curried with
  | false => exact hfunction
  | true =>
      have hlibrary := h.sound_library "curry"
      simp [Sound, functionOf, hlibrary, hfunction]

/-- A body in which a variable holds a record of definitions. -/
theorem sound_scoped_of {inner : Environment} {tag : Origin} {variableName : String}
    {entries : List (JavaScript.Expr Origin)} {body : JavaScript.Expr Origin}
    (hinside : Sees root bindings inner (⟨tag, [], [variableName]⟩ :: frames))
    (failures : List String)
    (hentries : JavaScript.Expr.ListSound (Refers root bindings)
      (⟨tag, [], [variableName]⟩ :: frames) entries)
    (hbody : Sound root bindings (⟨tag, [], [variableName]⟩ :: frames) body) :
    Sound root bindings frames (scopedOf .support tag variableName entries failures body) := by
  refine sound_called ?_
  rw [Frame.ofFunction, List.filterMap_cons, declared_thrown]
  exact Statement.list_sound_cons.2
    ⟨hinside.sound_record_of hentries, hinside.sound_returned failures hbody⟩

/-- A definition of a record. -/
theorem sound_entry {value : JavaScript.Expr Origin}
    (hvalue : Sound root bindings (⟨.support, [], []⟩ :: frames) value) (name : String) :
    Sound root bindings frames (entry .support name value) := by
  have hfunction : Sound root bindings frames (.function .support [] [.returns value]) :=
    JavaScript.Expr.sound_function.2
      ⟨List.nodup_nil, Statement.list_sound_cons.2 ⟨hvalue, Statement.list_sound_nil⟩⟩
  simp [Sound, entry, hfunction]

end Sees

end Script

/-! ## Trees -/

/-- Identifiers are resolved to what their names refer to. -/
def Bindings.Resolved (bindings : Bindings) (globals : List String) (references : List Reference) :
    Prop :=
  ∀ reference ∈ references, ∃ resolution,
    bindings.resolution? reference.id = some resolution ∧
      bindings.Resolves globals reference.token reference.declaration resolution

section Image

variable {root : Tree} {bindings : Bindings} {globals : List String}

/-- The code of an identifier reaches its declaration. -/
theorem identifier_image_sound {env : Environment} {frames : List (Frame Origin)} {id : NodeId}
    {token : Token} (hsees : Sees root bindings env frames)
    (hhas : root.Has (.tree (.identifier id token)))
    (hresolved : bindings.Resolved globals [⟨id, token, env token.value⟩]) :
    Script.Sound root bindings frames (identifierImage bindings id token.value) := by
  obtain ⟨resolution, hfound, hresolves⟩ := hresolved _ (List.mem_singleton.2 rfl)
  generalize hdeclared : env token.value = declared at hresolves
  unfold identifierImage
  rw [hfound]
  cases hresolves with
  | supplied hmem =>
      exact JavaScript.Expr.sound_variable.2 (Refers.global hhas hfound hsees.globals)
  | unknown hmem => exact hsees.sound_failing _
  | @declared declaration scope hopens =>
      have hreaches := hsees.reaches _ _ hdeclared
      obtain ⟨kind, owner, node⟩ := declaration
      cases kind with
      | global => exact hreaches.elim
      | param =>
          obtain ⟨fnToken, params, arrow, body, index, hfunction, hparam, hresolve⟩ := hreaches
          exact JavaScript.Expr.sound_variable.2
            (Refers.param hhas hfound hfunction hopens hparam hresolve)
      | definition =>
          obtain ⟨letToken, items, inToken, body, hlet, hitem, hresolve⟩ := hreaches
          exact JavaScript.Expr.sound_variable.2
            (Refers.definition hhas hfound hlet hopens hitem (hresolve scope hopens))

mutual

/-- The names in the code of a tree refer to what they were made for. -/
theorem Tree.image_sound (curry : Bool) (hrecorded : bindings.Recorded) (tree : Tree)
    {env : Environment} {frames : List (Frame Origin)} (hsees : Sees root bindings env frames)
    (hhas : tree.Every root.Has) (hresolved : bindings.Resolved globals (tree.references env)) :
    (tree.image bindings curry).Yields (Script.Sound root bindings frames) := by
  cases tree with
  | identifier id token =>
      rw [Tree.image]
      exact .pure (identifier_image_sound hsees (Tree.every_identifier.1 hhas) hresolved)
  | literal id token value =>
      rw [Tree.image]
      exact .pure (hsees.sound_numeric value)
  | placeholder id token =>
      rw [Tree.image]
      exact .pure (hsees.sound_failing _)
  | fault f =>
      rw [Tree.image]
      exact .pure (hsees.sound_failing _)
  | paren id opener inner closer =>
      rw [Tree.image]
      exact inner.image_sound curry hrecorded hsees (Tree.every_paren.1 hhas).2 hresolved
  | letIn id letToken items inToken body =>
      obtain ⟨hself, hitems, hbody⟩ := Tree.every_let_in.1 hhas
      obtain ⟨hitemsResolved, hbodyResolved⟩ := List.forall_mem_append.1 hresolved
      have hinside := hsees.let_in hrecorded hself
      rw [Tree.image]
      refine (Item.image_list_sound curry hrecorded Node.ofBinding items hinside hitems
        hitemsResolved).bind fun entries hentries =>
          (body.image_sound curry hrecorded hinside hbody hbodyResolved).bind fun image himage =>
            .pure ?_
      exact Sees.sound_scoped_of hinside _ hentries himage
  | function id fnToken params arrow body =>
      obtain ⟨hself, hbody⟩ := Tree.every_function.1 hhas
      let names := paramNames ((params.filterMap Param.declared?).map (·.2))
      have hnames : names.Yields fun chosen => ∃ n, chosen = (names n).1 := fun n => ⟨n, rfl⟩
      rw [Tree.image, Param.variables_eq]
      refine hnames.bind ?_
      rintro chosen ⟨n, rfl⟩
      have hinside := hsees.function hself n
      exact (body.image_sound curry hrecorded hinside hbody hresolved).bind fun image himage =>
        .pure (hsees.sound_function_of hinside curry _ (nodup_param_names _ n) himage)
  | record id opener items closer =>
      obtain ⟨hself, hitems⟩ := Tree.every_record.1 hhas
      have hentries :=
        Item.image_list_sound curry hrecorded Node.ofField items hsees hitems hresolved
      -- with faults the definitions stand inside a function of their own
      have hentries' := Item.image_list_sound curry hrecorded Node.ofField items
        (hsees.unnamed .support) hitems hresolved
      rw [Tree.image]
      cases Item.failures items with
      | nil => exact hentries.bind fun _ hsound => .pure (hsees.sound_record_of hsound)
      | cons message failures =>
          exact hentries'.bind fun _ hsound => .pure (hsees.sound_faulty_record_of _ hsound)
  | unary id operator operand =>
      obtain ⟨hself, hoperand⟩ := Tree.every_unary.1 hhas
      have hsound := operand.image_sound curry hrecorded hsees hoperand hresolved
      have hsigned (sign : Operator) :
          Naming.Yields (Script.Sound root bindings frames)
            (do return .unary sign (← operand.image bindings curry)) :=
        hsound.bind fun image himage => .pure (JavaScript.Expr.sound_unary.2 himage)
      rw [Tree.image]
      cases operator.kind with
      | plus => exact hsigned .plus
      | dash => exact hsigned .minus
      | _ => exact .pure (hsees.sound_failing _)
  | binary id left operator right =>
      obtain ⟨hself, hleft, hright⟩ := Tree.every_binary.1 hhas
      obtain ⟨hleftResolved, hrightResolved⟩ := List.forall_mem_append.1 hresolved
      have hsound := left.image_sound curry hrecorded hsees hleft hleftResolved
      have hsound' := right.image_sound curry hrecorded hsees hright hrightResolved
      have hsigned (sign : Operator) :
          Naming.Yields (Script.Sound root bindings frames)
            (do
              let image ← left.image bindings curry
              return .binary sign image (← right.image bindings curry)) :=
        hsound.bind fun image himage => hsound'.bind fun image' himage' =>
          .pure (JavaScript.Expr.sound_binary.2 ⟨himage, himage'⟩)
      rw [Tree.image]
      cases operator.kind with
      | plus => exact hsigned .plus
      | dash => exact hsigned .minus
      | star => exact hsigned .times
      | slash => exact hsigned .divide
      | _ => exact .pure (hsees.sound_failing _)
  | apply id callee argument =>
      obtain ⟨hself, hcallee, hargument⟩ := Tree.every_apply.1 hhas
      obtain ⟨hcalleeResolved, hargumentResolved⟩ := List.forall_mem_append.1 hresolved
      rw [Tree.image]
      exact (callee.image_sound curry hrecorded hsees hcallee hcalleeResolved).bind
        fun image himage =>
          (argument.image_sound curry hrecorded hsees hargument hargumentResolved).bind
            fun image' himage' => .pure (JavaScript.Expr.sound_call.2
              ⟨himage, JavaScript.Expr.list_sound_cons.2
                ⟨himage', JavaScript.Expr.list_sound_nil⟩⟩)

/-- The names in the code of definitions refer to what they were made for. -/
theorem Item.image_list_sound (curry : Bool) (hrecorded : bindings.Recorded)
    (toNode : Item → Node) (items : List Item) {env : Environment}
    {frames : List (Frame Origin)} (hsees : Sees root bindings env frames)
    (hhas : ∀ item ∈ items, item.Every toNode root.Has)
    (hresolved : bindings.Resolved globals (Item.listReferences env items)) :
    (Item.imageList bindings curry items).Yields
      (JavaScript.Expr.ListSound (Refers root bindings) frames) := by
  cases items with
  | nil =>
      rw [Item.imageList]
      exact .pure JavaScript.Expr.list_sound_nil
  | cons item items =>
      obtain ⟨hitem, hitems⟩ := List.forall_mem_cons.1 hhas
      obtain ⟨hitemResolved, hitemsResolved⟩ := List.forall_mem_append.1 hresolved
      have hrest := Item.image_list_sound curry hrecorded toNode items hsees hitems hitemsResolved
      cases item with
      | fault f =>
          rw [Item.imageList]
          exact hrest
      | definition id name equals value =>
          have hvalue := value.image_sound curry hrecorded (hsees.unnamed .support) hitem.2
            hitemResolved
          rw [Item.imageList]
          exact hvalue.bind fun image himage => hrest.bind fun images himages =>
            .pure (JavaScript.Expr.list_sound_cons.2 ⟨Sees.sound_entry himage _, himages⟩)

end

end Image

/-- No name in the code of a program is captured. The names refer to what they were made for, and
the parameters of each function are distinct. -/
theorem Tree.sound_image_parse (tokens : Array Token) (globals : List String) (curry : Bool) :
    Script.Sound (Tree.parse tokens) ((Tree.parse tokens).resolve globals) [programFrame]
      ((Tree.parse tokens).image ((Tree.parse tokens).resolve globals) curry 0).1 := by
  have hwalked := (Tree.parse tokens).walk_walked (Binder.ready_start globals _)
    (Tree.parse_ids_nodup tokens)
  exact Tree.image_sound curry (Tree.recorded_resolve _ globals) _ (sees_program _ _)
    (fun entry hentry => ⟨entry.1, hentry⟩) hwalked.resolved 0

end LetScript
