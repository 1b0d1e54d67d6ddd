import LetScript.Proofs.Scope.Environment
import LetScript.Scope.Resolution

/-!
# Names are scoped lexically

The binder goes through a tree with a path of scopes that it enters and leaves, while
`Tree.references` hands environments down the tree. `Tree.walk_walked` shows that the two agree at
every node: a walk over a tree leaves the path as it was, and resolves each identifier as the
environment says. The invariant is that looking up names along the parents of the innermost scope
gives what the environment gives (`Binder.Ready`). A node leaves the innermost scope only if it has
opened it, because the identities of the nodes are distinct.
-/

namespace LetScript

/-! ## Scopes -/

namespace Scope

variable {scopes scopes' : Array Scope} {scope : Scope} {name : String} {id : ScopeId}

/-- Declaring names changes neither the number of a scope, nor its parent, nor its node. -/
theorem declare_all_frame (scope : Scope) (kind : BindingKind) (names : List (NodeId × String)) :
    (scope.declareAll kind names).id = scope.id ∧
      (scope.declareAll kind names).parent = scope.parent ∧
      (scope.declareAll kind names).node = scope.node := by
  unfold declareAll
  induction names generalizing scope with
  | nil => exact ⟨rfl, rfl, rfl⟩
  | cons entry names ih => exact ih (scope.declare entry.2 kind (some entry.1))

/-- A scope of a node declares the names in which the environment inside differs from the one
outside, and as the environment inside says. -/
def Declares (scope : Scope) (kind : BindingKind) (owner : NodeId) (outside inside : Environment) :
    Prop :=
  ∀ name, (scope.find? name = none ∧ inside name = outside name) ∨
    ∃ node, scope.find? name = some ⟨name, kind, scope.id, some node⟩ ∧
      inside name = some ⟨kind, owner, node⟩

/-- A scope and an environment may declare the same names one after another. -/
theorem Declares.declare_all {kind : BindingKind} {owner : NodeId} {outside inside : Environment}
    (h : scope.Declares kind owner outside inside) (names : List (NodeId × String)) :
    (scope.declareAll kind names).Declares kind owner outside
      (inside.declareAll owner kind names) := by
  unfold declareAll Environment.declareAll
  induction names generalizing scope inside with
  | nil => exact h
  | cons entry names ih =>
      obtain ⟨node, declared⟩ := entry
      refine ih fun name => ?_
      by_cases hname : name = declared
      · subst hname
        exact .inr ⟨node, find_declare_self .., Environment.declare_self ..⟩
      · simp only [find_declare_of_ne scope kind (some node) hname,
          Environment.declare_of_ne inside _ hname]
        exact h name

/-- The host's names are declared as globals, and no others. -/
theorem find_of_globals (globals : List String) (name : String) :
    (ofGlobals globals).find? name =
      if name ∈ globals then some ⟨name, .global, 0, none⟩ else none := by
  have hfold (scope : Scope) (hid : scope.id = 0) :
      (globals.foldl (fun scope name => scope.declare name .global none) scope).find? name =
        if name ∈ globals then some ⟨name, .global, 0, none⟩ else scope.find? name := by
    induction globals generalizing scope with
    | nil => rfl
    | cons first globals ih =>
        rw [List.foldl_cons, ih (scope.declare first .global none) hid]
        by_cases hname : name = first
        · subst hname
          simp [find_declare_self, hid]
        · simp [find_declare_of_ne scope .global none hname, hname]
  exact hfold _ rfl

/-- The scope of the host has no parent and belongs to no node. -/
theorem of_globals_frame (globals : List String) :
    (ofGlobals globals).parent = none ∧ (ofGlobals globals).node = none := by
  have hfold (scope : Scope) (hparent : scope.parent = none) (hnode : scope.node = none) :
      (globals.foldl (fun scope name => scope.declare name .global none) scope).parent = none ∧
        (globals.foldl (fun scope name => scope.declare name .global none) scope).node = none := by
    induction globals generalizing scope with
    | nil => exact ⟨hparent, hnode⟩
    | cons first globals ih => exact ih (scope.declare first .global none) hparent hnode
  exact hfold _ rfl rfl

/-- A name that a scope declares is found there. -/
theorem lookup_of_find {binding : Binding} (h : scopes[id]? = some scope)
    (hfind : scope.find? name = some binding) : lookup scopes name id = some binding := by
  rw [lookup, h]
  simp only [hfind]

/-- A name that a scope does not declare is looked up in the scope around it. -/
theorem lookup_of_parent {parent : ScopeId} (h : scopes[id]? = some scope)
    (hfind : scope.find? name = none) (hparent : scope.parent = some parent) (hlt : parent < id) :
    lookup scopes name id = lookup scopes name parent := by
  rw [lookup, h]
  simp only [hfind, hparent, if_pos hlt]

/-- A name that the outermost scope does not declare is not found. -/
theorem lookup_of_root (h : scopes[id]? = some scope) (hfind : scope.find? name = none)
    (hparent : scope.parent = none) : lookup scopes name id = none := by
  rw [lookup, h]
  simp only [hfind, hparent]

/-- Looking up a name does not depend on the scopes with greater numbers. -/
theorem lookup_congr (h : ∀ other ≤ id, scopes'[other]? = scopes[other]?) :
    lookup scopes' name id = lookup scopes name id := by
  fun_induction lookup scopes name id with
  | case1 id hnone =>
      rw [lookup, h id (Nat.le_refl id), hnone]
  | case2 id scope hscope binding hfind =>
      exact lookup_of_find ((h id (Nat.le_refl id)).trans hscope) hfind
  | case3 id scope hscope hparent hfind =>
      exact lookup_of_root ((h id (Nat.le_refl id)).trans hscope) hfind hparent
  | case4 id scope hscope parent hparent hfind hlt ih =>
      rw [lookup_of_parent ((h id (Nat.le_refl id)).trans hscope) hfind hparent hlt]
      exact ih fun other hle => h other (Nat.le_trans hle (Nat.le_of_lt hlt))
  | case5 id scope hscope parent hparent hfind hlt =>
      rw [lookup, h id (Nat.le_refl id), hscope]
      simp only [hfind, hparent, if_neg hlt]

end Scope

/-! ## What bindings say about names -/

namespace Bindings

variable {bindings bindings' : Bindings} {globals : List String}

/-- The scope that a let or function has opened. -/
def Opens (bindings : Bindings) (node : NodeId) (id : ScopeId) : Prop :=
  bindings.scopeOf? node = some id ∧
    ∃ scope, bindings.scopes[id]? = some scope ∧ scope.node = some node

/-- What a name is bound to, given the declaration that it refers to: the declaration in the scope
of its let or function, else the global of this name in the scope of the host, else nothing. -/
inductive Means (bindings : Bindings) (globals : List String) (name : String) :
    Option Declaration → Option Binding → Prop
  | declared {declaration : Declaration} {scope : ScopeId} :
      bindings.Opens declaration.owner scope →
      Means bindings globals name (some declaration)
        (some ⟨name, declaration.kind, scope, some declaration.node⟩)
  | supplied : name ∈ globals → Means bindings globals name none (some ⟨name, .global, 0, none⟩)
  | unknown : name ∉ globals → Means bindings globals name none none

/-- How an identifier is resolved, given the declaration that its name refers to. An unknown name
is reported at the start of the identifier. -/
inductive Resolves (bindings : Bindings) (globals : List String) (token : Token) :
    Option Declaration → Resolution → Prop
  | declared {declaration : Declaration} {scope : ScopeId} :
      bindings.Opens declaration.owner scope →
      Resolves bindings globals token (some declaration)
        (.bound ⟨token.value, declaration.kind, scope, some declaration.node⟩)
  | supplied : token.value ∈ globals →
      Resolves bindings globals token none (.bound ⟨token.value, .global, 0, none⟩)
  | unknown : token.value ∉ globals →
      Resolves bindings globals token none
        (.unresolved ⟨.unresolvedIdentifier token.value, token.span.start⟩)

/-- An identifier is resolved to what its name is bound to. -/
theorem Means.resolves {token : Token} {declaration : Option Declaration}
    {binding : Option Binding} (h : bindings.Means globals token.value declaration binding) :
    bindings.Resolves globals token declaration (.ofLookup token binding) := by
  cases h with
  | declared hopens => exact .declared hopens
  | supplied hmem => exact .supplied hmem
  | unknown hmem => exact .unknown hmem

/-- Later bindings keep the scopes of earlier ones. -/
structure Keeps (bindings bindings' : Bindings) : Prop where
  scopes : ∀ (id : ScopeId) (scope : Scope),
    bindings.scopes[id]? = some scope → bindings'.scopes[id]? = some scope
  opened : ∀ node id, bindings.scopeOf? node = some id → bindings'.scopeOf? node = some id

/-- Bindings keep their own scopes. -/
theorem Keeps.refl (bindings : Bindings) : bindings.Keeps bindings :=
  ⟨fun _ _ => id, fun _ _ => id⟩

/-- What was kept twice was kept. -/
theorem Keeps.trans {bindings'' : Bindings} (h : bindings.Keeps bindings')
    (h' : bindings'.Keeps bindings'') : bindings.Keeps bindings'' :=
  ⟨fun id scope hscope => h'.scopes id scope (h.scopes id scope hscope),
    fun node id hnode => h'.opened node id (h.opened node id hnode)⟩

/-- Names are looked up from a scope as before. -/
theorem Keeps.lookup_eq {id : ScopeId} {scope : Scope} (h : bindings.Keeps bindings')
    (hscope : bindings.scopes[id]? = some scope) (name : String) :
    Scope.lookup bindings'.scopes name id = Scope.lookup bindings.scopes name id := by
  refine Scope.lookup_congr fun other hle => ?_
  have hlt : id < bindings.scopes.size := (Array.getElem?_eq_some_iff.1 hscope).1
  have hother := Array.getElem?_eq_getElem (Nat.lt_of_le_of_lt hle hlt)
  rw [hother]
  exact h.scopes other _ hother

/-- Opened scopes are kept. -/
theorem Opens.keep {node : NodeId} {id : ScopeId} (h : bindings.Opens node id)
    (hkeeps : bindings.Keeps bindings') : bindings'.Opens node id := by
  obtain ⟨hnode, scope, hscope, howner⟩ := h
  exact ⟨hkeeps.opened node id hnode, scope, hkeeps.scopes id scope hscope, howner⟩

/-- The meaning of a name is kept. -/
theorem Means.keep {name : String} {declaration : Option Declaration} {binding : Option Binding}
    (h : bindings.Means globals name declaration binding) (hkeeps : bindings.Keeps bindings') :
    bindings'.Means globals name declaration binding := by
  cases h with
  | declared hopens => exact .declared (hopens.keep hkeeps)
  | supplied hmem => exact .supplied hmem
  | unknown hmem => exact .unknown hmem

/-- The resolution of an identifier is kept. -/
theorem Resolves.keep {token : Token} {declaration : Option Declaration} {resolution : Resolution}
    (h : bindings.Resolves globals token declaration resolution)
    (hkeeps : bindings.Keeps bindings') :
    bindings'.Resolves globals token declaration resolution := by
  cases h with
  | declared hopens => exact .declared (hopens.keep hkeeps)
  | supplied hmem => exact .supplied hmem
  | unknown hmem => exact .unknown hmem

end Bindings

/-! ## The steps of the binder -/

namespace Binder

variable {globals : List String} {env : Environment} {binder binder' : Binder}
  {ids ids' : List NodeId} {references references' : List Reference}

/-- A binder before nodes with some identities, at a point of a tree with some environment. It has
entered a scope, it looks up names as the environment says, and none of the nodes has opened a scope
yet. -/
structure Ready (globals : List String) (env : Environment) (ids : List NodeId) (binder : Binder) :
    Prop where
  entered : ∃ (id : ScopeId) (scope : Scope),
    binder.path.head? = some id ∧ binder.scopes[id]? = some scope
  means : ∀ name, binder.Means globals name (env name) (binder.lookup name)
  unopened : ∀ id ∈ ids, binder.scopeOf? id = none
  outside : ∀ id ∈ ids, binder.current?.bind Scope.node ≠ some id

/-- What a walk over nodes with some identities has done: the path is as before, scopes were opened
for these nodes only, and the references among them are resolved and nothing else is. -/
structure Walked (globals : List String) (ids : List NodeId) (references : List Reference)
    (binder binder' : Binder) : Prop where
  path_eq : binder'.path = binder.path
  keeps : binder.Keeps binder'.toBindings
  opened : ∀ id, id ∉ ids → binder'.scopeOf? id = binder.scopeOf? id
  mem_ids : ∀ reference ∈ references, reference.id ∈ ids
  resolved : ∀ reference ∈ references, ∃ resolution,
    binder'.resolution? reference.id = some resolution ∧
      binder'.Resolves globals reference.token reference.declaration resolution
  unchanged : ∀ id, (∀ reference ∈ references, reference.id ≠ id) →
    binder'.resolution? id = binder.resolution? id

/-- A binder before some nodes is before fewer nodes. -/
theorem Ready.mono (h : binder.Ready globals env ids) (hids : ids' ⊆ ids) :
    binder.Ready globals env ids' :=
  ⟨h.entered, h.means, fun id hid => h.unopened id (hids hid),
    fun id hid => h.outside id (hids hid)⟩

/-- The innermost scope is the same after a walk. -/
theorem Walked.current_eq (h : Walked globals ids references binder binder')
    (hready : binder.Ready globals env ids') : binder'.current? = binder.current? := by
  obtain ⟨id, scope, hhead, hscope⟩ := hready.entered
  unfold current?
  rw [h.path_eq, hhead, Option.bind_some, Option.bind_some, hscope]
  exact h.keeps.scopes id scope hscope

/-- Names are looked up as before after a walk. -/
theorem Walked.lookup_eq (h : Walked globals ids references binder binder')
    (hready : binder.Ready globals env ids') (name : String) :
    binder'.lookup name = binder.lookup name := by
  obtain ⟨id, scope, hhead, hscope⟩ := hready.entered
  unfold lookup
  rw [h.path_eq, hhead, Option.bind_some, Option.bind_some]
  exact h.keeps.lookup_eq hscope name

/-- After a walk over some nodes the binder is before the nodes after them. -/
theorem Walked.ready (h : Walked globals ids references binder binder')
    (hready : binder.Ready globals env (ids ++ ids'))
    (hdisjoint : ∀ id ∈ ids, ∀ id' ∈ ids', id ≠ id') :
    binder'.Ready globals env ids' where
  entered := by
    obtain ⟨id, scope, hhead, hscope⟩ := hready.entered
    exact ⟨id, scope, h.path_eq ▸ hhead, h.keeps.scopes id scope hscope⟩
  means := by
    intro name
    rw [h.lookup_eq hready]
    exact (hready.means name).keep h.keeps
  unopened := by
    intro id hid
    rw [h.opened id fun hmem => hdisjoint id hmem id hid rfl]
    exact hready.unopened id (List.mem_append_right _ hid)
  outside := by
    intro id hid
    rw [h.current_eq hready]
    exact hready.outside id (List.mem_append_right _ hid)

/-- Nothing is done for no nodes. -/
theorem Walked.refl (globals : List String) (binder : Binder) :
    Walked globals [] [] binder binder where
  path_eq := rfl
  keeps := .refl binder.toBindings
  opened := fun _ _ => rfl
  mem_ids := fun _ hmem => absurd hmem List.not_mem_nil
  resolved := fun _ hmem => absurd hmem List.not_mem_nil
  unchanged := fun _ _ => rfl

/-- Two walks over different nodes are a walk over all of them. -/
theorem Walked.append {binder'' : Binder} (h : Walked globals ids references binder binder')
    (h' : Walked globals ids' references' binder' binder'')
    (hdisjoint : ∀ id ∈ ids, ∀ id' ∈ ids', id ≠ id') :
    Walked globals (ids ++ ids') (references ++ references') binder binder'' where
  path_eq := h'.path_eq.trans h.path_eq
  keeps := h.keeps.trans h'.keeps
  opened := by
    intro id hid
    obtain ⟨hfirst, hsecond⟩ := not_or.1 (mt List.mem_append.2 hid)
    rw [h'.opened id hsecond, h.opened id hfirst]
  mem_ids := by
    intro reference hmem
    rcases List.mem_append.1 hmem with hmem | hmem
    · exact List.mem_append_left _ (h.mem_ids reference hmem)
    · exact List.mem_append_right _ (h'.mem_ids reference hmem)
  resolved := by
    intro reference hmem
    rcases List.mem_append.1 hmem with hmem | hmem
    · obtain ⟨resolution, hfound, hresolves⟩ := h.resolved reference hmem
      refine ⟨resolution, ?_, hresolves.keep h'.keeps⟩
      -- the second walk resolves other identifiers, as its nodes are different
      rw [h'.unchanged reference.id fun other hother heq => ?_]
      · exact hfound
      · exact hdisjoint _ (h.mem_ids reference hmem) _ (h'.mem_ids other hother) heq.symm
    · exact h'.resolved reference hmem
  unchanged := by
    intro id hid
    rw [h'.unchanged id fun reference hmem => hid reference (List.mem_append_right _ hmem),
      h.unchanged id fun reference hmem => hid reference (List.mem_append_left _ hmem)]

/-- A node that opens no scope leaves none. -/
theorem leave_of_outside {node : Node} (h : binder.current?.bind Scope.node ≠ some node.id) :
    binder.leave node = binder :=
  if_neg h

/-- A walk over the nodes below a node that does nothing itself. -/
theorem Walked.pass (h : Walked globals ids references binder binder') (node : Node)
    (hready : binder.Ready globals env (node.id :: ids)) :
    Walked globals (node.id :: ids) references binder (leave node binder') := by
  -- the innermost scope belongs to a node above, which has another identity
  have houtside := hready.outside node.id (List.mem_cons_self ..)
  rw [← h.current_eq hready] at houtside
  rw [leave_of_outside houtside]
  exact { h with
    opened := fun id hid => h.opened id fun hmem => hid (List.mem_cons_of_mem _ hmem)
    mem_ids := fun reference hmem => List.mem_cons_of_mem _ (h.mem_ids reference hmem) }

/-- An identifier is resolved by looking up its name. -/
theorem resolution_resolve_self (binder : Binder) (id : NodeId) (token : Token) :
    (binder.resolve id token).resolution? id =
      some (.ofLookup token (binder.lookup token.value)) := by
  unfold resolve Bindings.resolution?
  exact Std.ExtTreeMap.getElem?_insert_self

/-- Resolving an identifier does not change the resolutions of others. -/
theorem resolution_resolve_of_ne (binder : Binder) {id other : NodeId} (token : Token)
    (h : id ≠ other) :
    (binder.resolve id token).resolution? other = binder.resolution? other := by
  unfold resolve Bindings.resolution?
  rw [Std.ExtTreeMap.getElem?_insert, if_neg (mt Nat.compare_eq_eq.1 h)]

/-- An identifier is resolved as the environment says. -/
theorem Walked.identifier {id : NodeId} {token : Token}
    (hready : binder.Ready globals env [id]) :
    Walked globals [id] [⟨id, token, env token.value⟩] binder
      (leave (.tree (.identifier id token)) (binder.resolve id token)) := by
  have houtside : (binder.resolve id token).current?.bind Scope.node ≠ some id :=
    hready.outside id (List.mem_singleton.2 rfl)
  have hkeeps : binder.Keeps (binder.resolve id token).toBindings :=
    ⟨fun _ _ hscope => hscope, fun _ _ hnode => hnode⟩
  rw [leave_of_outside houtside]
  refine ⟨rfl, hkeeps, fun _ _ => rfl, ?_, ?_, ?_⟩
  · intro reference hmem
    rw [List.mem_singleton.1 hmem]
    exact List.mem_singleton.2 rfl
  · intro reference hmem
    rw [List.mem_singleton.1 hmem]
    exact ⟨_, resolution_resolve_self .., (hready.means token.value).resolves.keep hkeeps⟩
  · intro other hother
    exact resolution_resolve_of_ne binder token (hother _ (List.mem_singleton.2 rfl))

/-- A node that opens a scope has this scope, and other nodes have theirs. -/
theorem scope_open_scope (binder : Binder) (node other : NodeId) (kind : BindingKind)
    (names : List (NodeId × String)) :
    (binder.openScope node kind names).scopeOf? other =
      if node = other then some binder.scopes.size else binder.scopeOf? other := by
  unfold openScope Bindings.scopeOf?
  rw [Std.ExtTreeMap.getElem?_insert]
  simp only [Nat.compare_eq_eq]

/-- A new scope is kept with the scopes before it, if the node has opened none. -/
theorem keeps_open_scope {node : NodeId} (h : binder.scopeOf? node = none) (kind : BindingKind)
    (names : List (NodeId × String)) :
    binder.Keeps (binder.openScope node kind names).toBindings where
  scopes := by
    intro id scope hscope
    have hlt : id < binder.scopes.size := (Array.getElem?_eq_some_iff.1 hscope).1
    unfold openScope
    rw [Array.getElem?_push_lt hlt, ← hscope, Array.getElem?_eq_getElem hlt]
  opened := by
    intro other id hother
    have hne : node ≠ other := by
      rintro rfl
      rw [h] at hother
      cases hother
    rw [scope_open_scope, if_neg hne]
    exact hother

/-- The scope that a node has opened. -/
theorem opened_scope (binder : Binder) (node : NodeId) (kind : BindingKind)
    (names : List (NodeId × String)) :
    ∃ scope : Scope, (binder.openScope node kind names).scopes[binder.scopes.size]? = some scope ∧
      scope.id = binder.scopes.size ∧ scope.parent = binder.path.head? ∧ scope.node = some node ∧
      ∀ outside : Environment, scope.Declares kind node outside
        (outside.declareAll node kind names) := by
  let scope : Scope := { id := binder.scopes.size, parent := binder.path.head?, node := some node }
  obtain ⟨hid, hparent, hnode⟩ := scope.declare_all_frame kind names
  refine ⟨scope.declareAll kind names, Array.getElem?_push_size, hid, hparent, hnode,
    fun outside => ?_⟩
  have hempty : scope.Declares kind node outside outside := fun name => .inl ⟨rfl, rfl⟩
  exact hempty.declare_all names

/-- In a new scope names are looked up as the environment inside says: in the scope if it declares
the name, and else as before. -/
theorem Ready.open_scope {node : NodeId} (h : binder.Ready globals env (node :: ids))
    (hnode : node ∉ ids) (kind : BindingKind) (names : List (NodeId × String)) :
    (binder.openScope node kind names).Ready globals (env.declareAll node kind names) ids := by
  have hkeeps := keeps_open_scope (h.unopened node (List.mem_cons_self ..)) kind names
  obtain ⟨scope, hscope, hid, hparent, howner, hdeclares⟩ :=
    binder.opened_scope node kind names
  have hne {id : NodeId} (hmem : id ∈ ids) : node ≠ id := by
    rintro rfl
    exact hnode hmem
  refine ⟨⟨binder.scopes.size, scope, rfl, hscope⟩, ?_, ?_, ?_⟩
  · intro name
    show Bindings.Means _ globals name _ (Scope.lookup _ name binder.scopes.size)
    rcases hdeclares env name with ⟨hfind, hname⟩ | ⟨declared, hfind, hname⟩
    · obtain ⟨outer, found, hhead, hfound⟩ := h.entered
      have hlt : outer < binder.scopes.size := (Array.getElem?_eq_some_iff.1 hfound).1
      have hlookup : Scope.lookup (binder.openScope node kind names).scopes name outer =
          binder.lookup name := by
        unfold lookup
        rw [hhead, Option.bind_some]
        exact hkeeps.lookup_eq hfound name
      rw [hname, Scope.lookup_of_parent hscope hfind (hparent.trans hhead) hlt, hlookup]
      exact (h.means name).keep hkeeps
    · rw [hname, Scope.lookup_of_find hscope hfind, hid]
      refine .declared ⟨?_, scope, hscope, howner⟩
      rw [scope_open_scope, if_pos rfl]
  · intro id hmem
    rw [scope_open_scope, if_neg (hne hmem)]
    exact h.unopened id (List.mem_cons_of_mem _ hmem)
  · intro id hmem
    have hcurrent : (binder.openScope node kind names).current? = some scope := hscope
    rw [hcurrent, Option.bind_some, howner]
    exact fun heq => hne hmem (Option.some.inj heq)

/-- A walk over the nodes below a node that opens a scope: the node leaves its scope again. -/
theorem Walked.close (opener : Node) {kind : BindingKind} {names : List (NodeId × String)}
    (h : Walked globals ids references (binder.openScope opener.id kind names) binder')
    (hopener : binder.scopeOf? opener.id = none) :
    Walked globals (opener.id :: ids) references binder (leave opener binder') := by
  obtain ⟨scope, hscope, -, -, howner, -⟩ := binder.opened_scope opener.id kind names
  have hpath : binder'.path = binder.scopes.size :: binder.path := h.path_eq
  have hcurrent : binder'.current? = some scope := by
    unfold current?
    rw [hpath]
    exact h.keeps.scopes _ scope hscope
  -- the scope on top of the path is still the one that the node has opened
  have hleave : leave opener binder' = { binder' with path := binder.path } := by
    unfold leave
    rw [hcurrent, Option.bind_some, if_pos howner, hpath, List.tail_cons]
  rw [hleave]
  refine ⟨rfl, (keeps_open_scope hopener kind names).trans h.keeps, ?_, ?_, h.resolved,
    h.unchanged⟩
  · intro id hid
    obtain ⟨hne, hmem⟩ := not_or.1 (mt List.mem_cons.2 hid)
    show binder'.scopeOf? id = _
    rw [h.opened id hmem, scope_open_scope, if_neg (Ne.symm hne)]
  · exact fun reference hmem => List.mem_cons_of_mem _ (h.mem_ids reference hmem)

end Binder

/-! ## Walks over trees -/

mutual

/-- A walk of the binder over a tree resolves its identifiers as the environment says. -/
theorem Tree.walk_walked {globals : List String} {env : Environment} {binder : Binder} (tree : Tree)
    (hready : binder.Ready globals env tree.ids) (hnodup : tree.ids.Nodup) :
    binder.Walked globals tree.ids (tree.references env)
      (tree.walk Binder.enter Binder.leave binder) := by
  cases tree with
  | identifier id token => exact .identifier hready
  | literal id token value => exact (Binder.Walked.refl globals binder).pass _ hready
  | placeholder id token => exact (Binder.Walked.refl globals binder).pass _ hready
  | fault f => exact (Binder.Walked.refl globals binder).pass _ hready
  | paren id opener inner closer =>
      rw [Tree.ids_paren] at hready hnodup ⊢
      have hinner := inner.walk_walked (hready.mono (List.subset_cons_self ..)) hnodup.of_cons
      exact hinner.pass (.tree (.paren id opener inner closer)) hready
  | letIn id letToken items inToken body =>
      rw [Tree.ids_let_in] at hready hnodup ⊢
      obtain ⟨hid, hparts⟩ := List.nodup_cons.1 hnodup
      obtain ⟨hitemsNodup, hbodyNodup, hdisjoint⟩ := List.nodup_append.1 hparts
      have hinside := hready.open_scope hid .definition (items.filterMap Item.declared?)
      rw [← Environment.declare_items_eq] at hinside
      have hitems := Item.walk_list_walked Node.ofBinding (fun item => by cases item <;> rfl)
        (fun item _ => by cases item <;> rfl) items (hinside.mono (List.subset_append_left ..))
        hitemsNodup
      have hbody := body.walk_walked (hitems.ready hinside hdisjoint) hbodyNodup
      exact (hitems.append hbody hdisjoint).close
        (.tree (.letIn id letToken items inToken body)) (hready.unopened id (List.mem_cons_self ..))
  | function id fnToken params arrow body =>
      rw [Tree.ids_function] at hready hnodup ⊢
      obtain ⟨hid, hbodyNodup⟩ := List.nodup_cons.1 hnodup
      have hinside := hready.open_scope hid .param (params.filterMap Param.declared?)
      rw [← Environment.declare_params_eq] at hinside
      have hbody := body.walk_walked hinside hbodyNodup
      exact hbody.close (.tree (.function id fnToken params arrow body))
        (hready.unopened id (List.mem_cons_self ..))
  | record id opener items closer =>
      rw [Tree.ids_record] at hready hnodup ⊢
      have hitems := Item.walk_list_walked Node.ofField (fun item => by cases item <;> rfl)
        (fun item _ => by cases item <;> rfl) items (hready.mono (List.subset_cons_self ..))
        hnodup.of_cons
      exact hitems.pass (.tree (.record id opener items closer)) hready
  | unary id operator operand =>
      rw [Tree.ids_unary] at hready hnodup ⊢
      have hoperand := operand.walk_walked (hready.mono (List.subset_cons_self ..)) hnodup.of_cons
      exact hoperand.pass (.tree (.unary id operator operand)) hready
  | binary id left operator right =>
      rw [Tree.ids_binary] at hready hnodup ⊢
      have hparts := hready.mono (List.subset_cons_self ..)
      obtain ⟨hleftNodup, hrightNodup, hdisjoint⟩ := List.nodup_append.1 hnodup.of_cons
      have hleft := left.walk_walked (hparts.mono (List.subset_append_left ..)) hleftNodup
      have hright := right.walk_walked (hleft.ready hparts hdisjoint) hrightNodup
      exact (hleft.append hright hdisjoint).pass (.tree (.binary id left operator right)) hready
  | apply id callee argument =>
      rw [Tree.ids_apply] at hready hnodup ⊢
      have hparts := hready.mono (List.subset_cons_self ..)
      obtain ⟨hcalleeNodup, hargumentNodup, hdisjoint⟩ := List.nodup_append.1 hnodup.of_cons
      have hcallee := callee.walk_walked (hparts.mono (List.subset_append_left ..)) hcalleeNodup
      have hargument := argument.walk_walked (hcallee.ready hparts hdisjoint) hargumentNodup
      exact (hcallee.append hargument hdisjoint).pass (.tree (.apply id callee argument)) hready

/-- A walk of the binder over an item resolves its identifiers as the environment says. -/
theorem Item.walk_walked {globals : List String} {env : Environment} {binder : Binder}
    (toNode : Item → Node) (hid : ∀ item, (toNode item).id = item.id)
    (henter : ∀ item binder, Binder.enter (toNode item) binder = binder) (item : Item)
    (hready : binder.Ready globals env item.ids) (hnodup : item.ids.Nodup) :
    binder.Walked globals item.ids (item.references env)
      (item.walk toNode Binder.enter Binder.leave binder) := by
  cases item with
  | definition id name equals value =>
      rw [Item.ids] at hready hnodup ⊢
      rw [Item.walk, henter]
      have hvalue := value.walk_walked (hready.mono (List.subset_cons_self ..)) hnodup.of_cons
      have hwalked := hvalue.pass (toNode (.definition id name equals value))
        (by rw [hid]; exact hready)
      rw [hid] at hwalked
      exact hwalked
  | fault f =>
      rw [Item.ids] at hready ⊢
      rw [Item.walk, henter]
      have hwalked := (Binder.Walked.refl globals binder).pass (toNode (.fault f))
        (by rw [hid]; exact hready)
      rw [hid] at hwalked
      exact hwalked

/-- A walk of the binder over a list of items resolves their identifiers as the environment says. -/
theorem Item.walk_list_walked {globals : List String} {env : Environment} {binder : Binder}
    (toNode : Item → Node) (hid : ∀ item, (toNode item).id = item.id)
    (henter : ∀ item binder, Binder.enter (toNode item) binder = binder) (items : List Item)
    (hready : binder.Ready globals env (items.flatMap Item.ids))
    (hnodup : (items.flatMap Item.ids).Nodup) :
    binder.Walked globals (items.flatMap Item.ids) (Item.listReferences env items)
      (Item.walkList toNode Binder.enter Binder.leave items binder) := by
  cases items with
  | nil => exact .refl globals binder
  | cons item items =>
      rw [List.flatMap_cons] at hready hnodup ⊢
      obtain ⟨hitemNodup, hitemsNodup, hdisjoint⟩ := List.nodup_append.1 hnodup
      have hitem := item.walk_walked toNode hid henter
        (hready.mono (List.subset_append_left ..)) hitemNodup
      have hitems := Item.walk_list_walked toNode hid henter items (hitem.ready hready hdisjoint)
        hitemsNodup
      exact hitem.append hitems hdisjoint

end

/-- Before a tree the binder knows the names of the host, and nothing is declared. -/
theorem Binder.ready_start (globals : List String) (ids : List NodeId) :
    (Binder.start globals).Ready globals .empty ids := by
  have hscope : (Binder.start globals).scopes[0]? = some (Scope.ofGlobals globals) := rfl
  obtain ⟨hparent, hnode⟩ := Scope.of_globals_frame globals
  refine ⟨⟨0, _, rfl, hscope⟩, ?_, ?_, ?_⟩
  · intro name
    have hfind := Scope.find_of_globals globals name
    show Bindings.Means _ globals name none (Scope.lookup _ name 0)
    by_cases hmem : name ∈ globals
    · rw [if_pos hmem] at hfind
      rw [Scope.lookup_of_find hscope hfind]
      exact .supplied hmem
    · rw [if_neg hmem] at hfind
      rw [Scope.lookup_of_root hscope hfind hparent]
      exact .unknown hmem
  · intro id _
    rfl
  · intro id _
    show (Scope.ofGlobals globals).node ≠ some id
    rw [hnode]
    exact nofun

/-- Names are scoped lexically. In a tree whose nodes have distinct identities the binder resolves
every identifier to the innermost declaration of its name, in the scope of the let or function that
this declaration belongs to; or else to the global of this name; or else it reports the name as
unresolved. The references are the identifiers of the tree, and nothing else is resolved. -/
theorem Tree.resolve_lexical (tree : Tree) (globals : List String) (hids : tree.ids.Nodup) :
    (tree.references .empty).map (fun reference => (reference.id, reference.token)) =
        tree.nodes.filterMap (fun entry => entry.2.identifier?) ∧
      (∀ reference ∈ tree.references .empty, ∃ resolution,
        (tree.resolve globals).resolution? reference.id = some resolution ∧
          (tree.resolve globals).Resolves globals reference.token reference.declaration
            resolution) ∧
      ∀ id, (∀ reference ∈ tree.references .empty, reference.id ≠ id) →
        (tree.resolve globals).resolution? id = none := by
  have hwalked := tree.walk_walked (Binder.ready_start globals tree.ids) hids
  exact ⟨tree.map_references .empty 0, hwalked.resolved, hwalked.unchanged⟩

/-- In `let x = ... in x (fn x => x)` the name that is applied is that of the definition, which is
declared in the scope of the let. The name in the function is that of the parameter, which is
declared in the scope of the function. -/
theorem Tree.resolve_lexical_shadowed :
    let x : Token := ⟨.identifier, "x", .empty .nowhere, false, none⟩
    let tree : Tree := .letIn 7 ⟨.letWord, "let", .empty .nowhere, false, none⟩
      [.definition 1 x ⟨.equals, "=", .empty .nowhere, false, none⟩
        (.placeholder 0 ⟨.ellipsis, "...", .empty .nowhere, false, none⟩)]
      ⟨.inWord, "in", .empty .nowhere, false, none⟩
      (.apply 6 (.identifier 2 x)
        (.function 5 ⟨.fnWord, "fn", .empty .nowhere, false, none⟩ [.name 3 x]
          ⟨.arrow, "=>", .empty .nowhere, false, none⟩ (.identifier 4 x)))
    tree.ids.Nodup ∧
      (∃ scope, (tree.resolve ["x"]).Opens 7 scope ∧
        (tree.resolve ["x"]).resolution? 2 = some (.bound ⟨"x", .definition, scope, some 1⟩)) ∧
      ∃ scope, (tree.resolve ["x"]).Opens 5 scope ∧
        (tree.resolve ["x"]).resolution? 4 = some (.bound ⟨"x", .param, scope, some 3⟩) := by
  intro x tree
  have hids : tree.ids.Nodup := by decide
  have hresolved := (tree.resolve_lexical ["x"] hids).2.1
  have hreferences : tree.references .empty =
      [⟨2, x, some ⟨.definition, 7, 1⟩⟩, ⟨4, x, some ⟨.param, 5, 3⟩⟩] := rfl
  rw [hreferences, List.forall_mem_cons, List.forall_mem_singleton] at hresolved
  obtain ⟨⟨_, hfound, hdefinition⟩, _, hfound', hparam⟩ := hresolved
  cases hdefinition with
  | @declared _ scope hopens =>
      cases hparam with
      | @declared _ scope' hopens' =>
          exact ⟨hids, ⟨scope, hopens, hfound⟩, scope', hopens', hfound'⟩

end LetScript
