import LetScript.Proofs.Scope.Owners

/-!
# The arena of scopes

The scopes of a program stand in one array and refer to each other by their numbers. `Scope.Arena`
says what the array looks like at every step of the binder, and `Scope.Leads` that its path goes
from the innermost scope to the scope of the host, parent by parent (`Binder.Sound.run`). So looking
up a name goes along such a path and never leaves the array (`Scope.Arena.searched`).

Which scope belongs to which node is seen by following the binder with a machine that knows nothing
of scopes: `ScopeFrames` lists the lets and functions that were entered, each with the one around
it. The binder keeps in step with it (`Binder.Tracks.run`), and over a whole tree the machine lists
the lets and functions of the tree (`Tree.adds_visits`).
-/

namespace LetScript

/-! ## The steps of a walk -/

/-- A step of a walk through a tree. -/
inductive Visit where
  | enter (node : Node)
  | leave (node : Node)

/-- What a step of a walk does. -/
def Visit.run {σ : Type} (enter leave : Node → σ → σ) (state : σ) : Visit → σ
  | .enter node => enter node state
  | .leave node => leave node state

mutual

/-- The steps of a walk through a tree. -/
def Tree.visits (tree : Tree) : List Visit :=
  .enter (.tree tree) ::
    (match tree with
      | .identifier _ _ => []
      | .literal _ _ _ => []
      | .placeholder _ _ => []
      | .fault _ => []
      | .paren _ _ inner _ => inner.visits
      | .letIn _ _ items _ body => Item.listVisits Node.ofBinding items ++ body.visits
      | .function _ _ _ _ body => body.visits
      | .record _ _ items _ => Item.listVisits Node.ofField items
      | .unary _ _ operand => operand.visits
      | .binary _ left _ right => left.visits ++ right.visits
      | .apply _ callee argument => callee.visits ++ argument.visits) ++
    [.leave (.tree tree)]

/-- The steps of a walk through an item. -/
def Item.visits (toNode : Item → Node) (item : Item) : List Visit :=
  .enter (toNode item) ::
    (match item with
      | .definition _ _ _ value => value.visits
      | .fault _ => []) ++
    [.leave (toNode item)]

/-- The steps of a walk through the items of a list. -/
def Item.listVisits (toNode : Item → Node) : List Item → List Visit
  | [] => []
  | item :: items => item.visits toNode ++ Item.listVisits toNode items

end

section Walk

variable {σ : Type} (enter leave : Node → σ → σ)

/-- A node is entered before the steps below it and left after them. -/
theorem Visit.foldl_around (node : Node) (visits : List Visit) (state : σ) :
    (Visit.enter node :: visits ++ [Visit.leave node]).foldl (Visit.run enter leave) state =
      leave node (visits.foldl (Visit.run enter leave) (enter node state)) := by
  rw [List.cons_append, List.foldl_cons, List.foldl_append]
  rfl

mutual

/-- A walk through a tree takes its steps one after another. -/
theorem Tree.walk_eq_foldl (tree : Tree) (state : σ) :
    tree.walk enter leave state = tree.visits.foldl (Visit.run enter leave) state := by
  cases tree with
  | identifier | literal | placeholder | fault => rfl
  | paren _ _ inner _ =>
      rw [Tree.walk, Tree.visits, Visit.foldl_around, inner.walk_eq_foldl]
  | letIn _ _ items _ body =>
      rw [Tree.walk, Tree.visits, Visit.foldl_around, List.foldl_append, body.walk_eq_foldl,
        Item.walk_list_eq_foldl]
  | function _ _ _ _ body =>
      rw [Tree.walk, Tree.visits, Visit.foldl_around, body.walk_eq_foldl]
  | record _ _ items _ =>
      rw [Tree.walk, Tree.visits, Visit.foldl_around, Item.walk_list_eq_foldl]
  | unary _ _ operand =>
      rw [Tree.walk, Tree.visits, Visit.foldl_around, operand.walk_eq_foldl]
  | binary _ left _ right =>
      rw [Tree.walk, Tree.visits, Visit.foldl_around, List.foldl_append, left.walk_eq_foldl,
        right.walk_eq_foldl]
  | apply _ callee argument =>
      rw [Tree.walk, Tree.visits, Visit.foldl_around, List.foldl_append, callee.walk_eq_foldl,
        argument.walk_eq_foldl]

/-- A walk through the items of a list takes its steps one after another. -/
theorem Item.walk_list_eq_foldl (toNode : Item → Node) (items : List Item) (state : σ) :
    Item.walkList toNode enter leave items state =
      (Item.listVisits toNode items).foldl (Visit.run enter leave) state := by
  cases items with
  | nil => rfl
  | cons item items =>
      rw [Item.walkList, Item.listVisits, List.foldl_append, Item.walk_list_eq_foldl toNode items]
      congr 1
      cases item with
      | definition _ _ _ value =>
          rw [Item.walk, Item.visits, Visit.foldl_around, value.walk_eq_foldl]
      | fault _ => rfl

end

end Walk

/-- What a step of a walk does to the binder. -/
def Binder.visit : Binder → Visit → Binder := Visit.run Binder.enter Binder.leave

/-- The binder after some steps of a walk. -/
def Binder.after (globals : List String) (visits : List Visit) : Binder :=
  visits.foldl Binder.visit (.start globals)

/-! ## Scopes that refer to each other -/

namespace Scope

/-- A path goes from a scope to the scope of the host, from each scope to its parent. -/
inductive Leads (scopes : Array Scope) : List ScopeId → Prop where
  | host : Leads scopes [0]
  | inner {id parent : ScopeId} {path : List ScopeId} {scope : Scope} :
      scopes[id]? = some scope → scope.parent = some parent → Leads scopes (parent :: path) →
      Leads scopes (id :: parent :: path)

/-- The declarations of a scope belong to it, and each is found under its name. -/
def Holds (scope : Scope) : Prop :=
  (∀ binding ∈ scope.bindings, binding.scope = scope.id) ∧
    ∀ name binding, scope.find? name = some binding ↔
      binding ∈ scope.bindings ∧ binding.name = name

/-- What the scopes of a program look like. -/
structure Arena (scopes : Array Scope) : Prop where
  /-- Scope 0 has no parent and no node. -/
  host : ∃ scope, scopes[0]? = some scope ∧ scope.parent = none ∧ scope.node = none
  /-- A scope stands at its number. -/
  numbered : ∀ (id : ScopeId) (scope : Scope), scopes[id]? = some scope → scope.id = id
  /-- Every other scope has a parent with a smaller number. -/
  inner : ∀ (id : ScopeId) (scope : Scope), scopes[id]? = some scope → id ≠ 0 →
    ∃ parent < id, scope.parent = some parent
  /-- A declaration belongs to the scope it stands in, and is found there under its name. -/
  held : ∀ (id : ScopeId) (scope : Scope), scopes[id]? = some scope → scope.Holds

variable {scopes : Array Scope} {scope : Scope} {id : ScopeId} {path : List ScopeId}

/-! ### Declarations -/

/-- One more declaration belongs to the scope and is found under its name. -/
theorem Holds.declare (h : scope.Holds) (name : String) (kind : BindingKind)
    (node : Option NodeId) : (scope.declare name kind node).Holds := by
  obtain ⟨hscope, hfind⟩ := h
  have hmem (binding : Binding) : binding ∈ (scope.declare name kind node).bindings ↔
      binding = ⟨name, kind, scope.id, node⟩ ∨ binding ∈ scope.bindings ∧ binding.name ≠ name := by
    simp [Scope.declare]
  refine ⟨?_, ?_⟩
  · intro binding hbinding
    rcases (hmem binding).1 hbinding with rfl | ⟨hbinding, -⟩
    · rfl
    · exact hscope binding hbinding
  · intro other binding
    rw [hmem]
    by_cases hother : other = name
    · subst hother
      rw [find_declare_self]
      constructor
      · rintro ⟨⟩
        exact ⟨.inl rfl, rfl⟩
      · rintro ⟨rfl | ⟨-, hne⟩, hname⟩
        · rfl
        · exact absurd hname hne
    · rw [find_declare_of_ne scope kind node hother, hfind]
      constructor
      · rintro ⟨hbinding, rfl⟩
        exact ⟨.inr ⟨hbinding, hother⟩, rfl⟩
      · rintro ⟨rfl | ⟨hbinding, -⟩, hname⟩
        · exact absurd hname.symm hother
        · exact ⟨hbinding, hname⟩

/-- A scope without declarations holds them all. -/
theorem holds_of_empty (h : scope.bindings = []) : scope.Holds := by
  simp [Holds, find?, h]

/-- The declarations of a let or function belong to its scope. -/
theorem Holds.declare_all (h : scope.Holds) (kind : BindingKind) (names : List (NodeId × String)) :
    (scope.declareAll kind names).Holds := by
  unfold declareAll
  induction names generalizing scope with
  | nil => exact h
  | cons entry names ih => exact ih (h.declare entry.2 kind (some entry.1))

/-- The names of the host are declared in its scope, which has the number 0. -/
theorem holds_of_globals (globals : List String) :
    (ofGlobals globals).Holds ∧ (ofGlobals globals).id = 0 := by
  have hfold (scope : Scope) (h : scope.Holds ∧ scope.id = 0) :
      (globals.foldl (fun scope name => scope.declare name .global none) scope).Holds ∧
        (globals.foldl (fun scope name => scope.declare name .global none) scope).id = 0 := by
    induction globals generalizing scope with
    | nil => exact h
    | cons first globals ih => exact ih _ ⟨h.1.declare first .global none, h.2⟩
  exact hfold _ ⟨holds_of_empty rfl, rfl⟩

/-! ### Paths -/

/-- The scopes on a path are in the array. -/
theorem Arena.lt_of_leads (h : Arena scopes) (hleads : Leads scopes path) :
    ∀ id ∈ path, id < scopes.size := by
  induction hleads with
  | host =>
      obtain ⟨scope, hscope, -⟩ := h.host
      exact List.forall_mem_singleton.2 (Array.getElem?_eq_some_iff.1 hscope).1
  | inner hscope _ _ ih =>
      exact List.forall_mem_cons.2 ⟨(Array.getElem?_eq_some_iff.1 hscope).1, ih⟩

/-- From every scope a path leads to the host. -/
theorem Arena.exists_leads (h : Arena scopes) {id : ScopeId} (hlt : id < scopes.size) :
    ∃ path, Leads scopes (id :: path) := by
  induction id using Nat.strongRecOn with
  | ind id ih =>
      by_cases hid : id = 0
      · subst hid
        exact ⟨[], .host⟩
      · have hscope := Array.getElem?_eq_getElem hlt
        obtain ⟨parent, hparent, heq⟩ := h.inner id _ hscope hid
        obtain ⟨path, hpath⟩ := ih parent hparent (Nat.lt_trans hparent hlt)
        exact ⟨parent :: path, .inner hscope heq hpath⟩

/-- A name is looked up along the path from a scope to the host, in one scope after another. -/
theorem Arena.lookup_eq (h : Arena scopes) (hleads : Leads scopes (id :: path)) (name : String) :
    lookup scopes name id =
      (id :: path).findSome? fun other => scopes[other]?.bind fun scope => scope.find? name := by
  generalize hfull : id :: path = full at hleads
  induction hleads generalizing id path with
  | host =>
      obtain ⟨rfl, rfl⟩ := List.cons.inj hfull
      obtain ⟨scope, hscope, hparent, -⟩ := h.host
      cases hfind : scope.find? name with
      | none => simp [lookup_of_root hscope hfind hparent, hscope, hfind]
      | some binding => simp [lookup_of_find hscope hfind, hscope, hfind]
  | @inner inner parent outer scope hscope hparent _ ih =>
      obtain ⟨rfl, rfl⟩ := List.cons.inj hfull
      have hid : id ≠ 0 := by
        rintro rfl
        obtain ⟨host, hhost, hnone, -⟩ := h.host
        rw [hhost] at hscope
        obtain rfl := Option.some.inj hscope
        rw [hnone] at hparent
        cases hparent
      obtain ⟨smaller, hlt, heq⟩ := h.inner id scope hscope hid
      rw [hparent] at heq
      obtain rfl := Option.some.inj heq
      rw [List.findSome?_cons, hscope, Option.bind_some]
      cases hfind : scope.find? name with
      | none => exact (lookup_of_parent hscope hfind hparent hlt).trans (ih rfl)
      | some binding => exact lookup_of_find hscope hfind

/-- Names are looked up from a scope along a path to the host, all of it in the array. -/
def Searched (scopes : Array Scope) (id : ScopeId) : Prop :=
  ∃ path, Leads scopes (id :: path) ∧ (∀ other ∈ id :: path, other < scopes.size) ∧
    ∀ name, lookup scopes name id =
      (id :: path).findSome? fun other => scopes[other]?.bind fun scope => scope.find? name

/-- Names can be looked up from every scope. -/
theorem Arena.searched (h : Arena scopes) (hlt : id < scopes.size) : Searched scopes id := by
  obtain ⟨path, hleads⟩ := h.exists_leads hlt
  exact ⟨path, hleads, h.lt_of_leads hleads, h.lookup_eq hleads⟩

/-- The scopes of an array keep their places when one is added. -/
theorem get_elem_push {found : Scope} (h : scopes[id]? = some found) (scope : Scope) :
    (scopes.push scope)[id]? = some found := by
  have hlt := (Array.getElem?_eq_some_iff.1 h).1
  rw [Array.getElem?_push_lt hlt, ← h, Array.getElem?_eq_getElem hlt]

/-- A path stays one when scopes are added. -/
theorem Leads.push (h : Leads scopes path) (scope : Scope) : Leads (scopes.push scope) path := by
  induction h with
  | host => exact .host
  | inner hfound hparent _ ih => exact .inner (get_elem_push hfound scope) hparent ih

/-- A scope may be added that has the next number and a scope of the array as its parent. -/
theorem Arena.push (h : Arena scopes) (hid : scope.id = scopes.size)
    {parent : ScopeId} (hparent : scope.parent = some parent) (hlt : parent < scopes.size)
    (hholds : scope.Holds) : Arena (scopes.push scope) := by
  -- a scope of the longer array is an old one or the new one
  have hcases {id : ScopeId} {found : Scope} (hfound : (scopes.push scope)[id]? = some found) :
      scopes[id]? = some found ∨ id = scopes.size ∧ found = scope := by
    rw [Array.getElem?_push] at hfound
    split at hfound
    next heq => exact .inr ⟨heq, (Option.some.inj hfound).symm⟩
    next => exact .inl hfound
  refine ⟨?_, ?_, ?_, ?_⟩
  · obtain ⟨host, hhost, hnone⟩ := h.host
    exact ⟨host, get_elem_push hhost scope, hnone⟩
  · intro id found hfound
    rcases hcases hfound with hold | ⟨rfl, rfl⟩
    · exact h.numbered id found hold
    · exact hid
  · intro id found hfound hne
    rcases hcases hfound with hold | ⟨rfl, rfl⟩
    · exact h.inner id found hold hne
    · exact ⟨parent, hlt, hparent⟩
  · intro id found hfound
    rcases hcases hfound with hold | ⟨rfl, rfl⟩
    · exact h.held id found hold
    · exact hholds

end Scope

/-! ## The steps of the binder -/

/-- The identity of a let or function, which opens a scope. -/
def Node.opener? : Node → Option NodeId
  | .tree (.letIn id _ _ _ _) => some id
  | .tree (.function id _ _ _ _) => some id
  | _ => none

namespace Binder

variable {binder : Binder}

/-- Entering a node opens a scope for a let or function, and else changes resolutions only. -/
theorem enter_cases (node : Node) (binder : Binder) :
    (node.opener? = none ∧ ∃ resolutions, binder.enter node = { binder with resolutions }) ∨
      ∃ kind names, node.opener? = some node.id ∧
        binder.enter node = binder.openScope node.id kind names := by
  unfold enter
  split
  · exact .inl ⟨rfl, _, rfl⟩
  · exact .inr ⟨_, _, rfl, rfl⟩
  · exact .inr ⟨_, _, rfl, rfl⟩
  · rename_i hidentifier hlet hfunction
    refine .inl ⟨?_, binder.resolutions, rfl⟩
    unfold Node.opener?
    split
    · exact (hlet _ _ _ _ _ rfl).elim
    · exact (hfunction _ _ _ _ _ rfl).elim
    · rfl

/-- The scopes that a binder has made, and its path through them. -/
structure Sound (binder : Binder) : Prop where
  arena : Scope.Arena binder.scopes
  leads : Scope.Leads binder.scopes binder.path

/-- The path of a binder is not empty. -/
theorem Sound.path_eq_cons (h : binder.Sound) : ∃ id path, binder.path = id :: path := by
  have hleads := h.leads
  cases hpath : binder.path with
  | nil =>
      rw [hpath] at hleads
      cases hleads
  | cons id path => exact ⟨id, path, rfl⟩

/-- Before a tree there is the scope of the host. -/
theorem sound_start (globals : List String) : (start globals).Sound := by
  obtain ⟨hparent, hnode⟩ := Scope.of_globals_frame globals
  obtain ⟨hholds, hid⟩ := Scope.holds_of_globals globals
  have honly {id : ScopeId} {scope : Scope} (h : (start globals).scopes[id]? = some scope) :
      id = 0 ∧ scope = .ofGlobals globals := by
    obtain ⟨hlt, heq⟩ := Array.getElem?_eq_some_iff.1 h
    obtain rfl := Nat.lt_one_iff.1 hlt
    exact ⟨rfl, heq.symm⟩
  refine ⟨⟨⟨_, rfl, hparent, hnode⟩, ?_, ?_, ?_⟩, .host⟩
  · intro id scope hscope
    obtain ⟨rfl, rfl⟩ := honly hscope
    exact hid
  · intro id scope hscope hne
    exact absurd (honly hscope).1 hne
  · intro id scope hscope
    rw [(honly hscope).2]
    exact hholds

/-- Opening a scope adds it to the array and to the path. -/
theorem Sound.open_scope (h : binder.Sound) (node : NodeId) (kind : BindingKind)
    (names : List (NodeId × String)) : (binder.openScope node kind names).Sound := by
  let scope : Scope := { id := binder.scopes.size, parent := binder.path.head?, node := some node }
  obtain ⟨hid, hparent, -⟩ := scope.declare_all_frame kind names
  have hholds : (scope.declareAll kind names).Holds :=
    (Scope.holds_of_empty rfl).declare_all kind names
  obtain ⟨outer, path, hpath⟩ := h.path_eq_cons
  have hhead : binder.path.head? = some outer := by rw [hpath]; rfl
  have hlt := h.arena.lt_of_leads h.leads outer (hpath ▸ List.mem_cons_self ..)
  have hleads := h.leads.push (scope.declareAll kind names)
  refine ⟨h.arena.push hid (hparent.trans hhead) hlt hholds, ?_⟩
  show Scope.Leads (binder.scopes.push (scope.declareAll kind names))
    (binder.scopes.size :: binder.path)
  rw [hpath] at hleads ⊢
  exact .inner Array.getElem?_push_size (hparent.trans hhead) hleads

/-- A step of a walk keeps the scopes and the path in order. The scope of the host is never left, as
it belongs to no node. -/
theorem Sound.visit (h : binder.Sound) (visit : Visit) : (binder.visit visit).Sound := by
  cases visit with
  | enter node =>
      show (binder.enter node).Sound
      rcases enter_cases node binder with ⟨-, resolutions, heq⟩ | ⟨kind, names, -, heq⟩
      · rw [heq]
        exact ⟨h.arena, h.leads⟩
      · rw [heq]
        exact h.open_scope node.id kind names
  | leave node =>
      show (binder.leave node).Sound
      unfold leave
      split
      next hnode =>
        refine ⟨h.arena, ?_⟩
        show Scope.Leads binder.scopes binder.path.tail
        obtain ⟨host, hhost, -, hnone⟩ := h.arena.host
        obtain ⟨id, path, hpath⟩ := h.path_eq_cons
        have hleads := h.leads
        unfold current? at hnode
        rw [hpath] at hleads hnode ⊢
        cases hleads with
        | host =>
            rw [List.head?_cons, Option.bind_some, hhost, Option.bind_some, hnone] at hnode
            cases hnode
        | inner _ _ houter => exact houter
      next => exact h

/-- The scopes and the path stay in order along a walk. -/
theorem Sound.run (h : binder.Sound) (visits : List Visit) :
    (visits.foldl Binder.visit binder).Sound := by
  induction visits generalizing binder with
  | nil => exact h
  | cons first visits ih => exact ih (h.visit first)

end Binder

/-! ## Lets and functions one inside the other -/

/-- A let or function and the innermost one around it. -/
structure ScopeFrame where
  node : NodeId
  outer : Option NodeId

/-- The lets and functions that a walk has entered, in order, and those of them that it has not left
yet, the innermost first. -/
structure ScopeFrames where
  entered : List ScopeFrame := []
  inside : List NodeId := []

/-- A frame of a list with one more frame is one of the list or the new one. -/
theorem ScopeFrame.get_elem_concat {frames : List ScopeFrame} {last frame : ScopeFrame}
    {index : Nat} :
    (frames ++ [last])[index]? = some frame ↔
      frames[index]? = some frame ∨ index = frames.length ∧ frame = last := by
  rw [List.getElem?_append]
  split
  next hlt =>
    have hne : index ≠ frames.length := Nat.ne_of_lt hlt
    simp [hne]
  next hle =>
    rw [List.getElem?_eq_none (Nat.le_of_not_lt hle), List.getElem?_singleton]
    split
    next hzero =>
      have hindex : index = frames.length := by omega
      simp [hindex, eq_comm]
    next hzero =>
      have hindex : index ≠ frames.length := by omega
      simp [hindex]

namespace ScopeFrames

/-- Enter a node. -/
def enter (node : Node) (frames : ScopeFrames) : ScopeFrames :=
  match node.opener? with
  | some id => ⟨frames.entered ++ [⟨id, frames.inside.head?⟩], id :: frames.inside⟩
  | none => frames

/-- Leave a node. -/
def leave (node : Node) (frames : ScopeFrames) : ScopeFrames :=
  if frames.inside.head? = some node.id then { frames with inside := frames.inside.tail }
  else frames

/-- Take a step of a walk. -/
def visit : ScopeFrames → Visit → ScopeFrames := Visit.run enter leave

end ScopeFrames

/-- The scopes of a program belong to its lets and functions, which are listed with the innermost
one around each. -/
structure Bindings.Nested (bindings : Bindings) (frames : List ScopeFrame) : Prop where
  /-- There is one scope more than there are lets and functions. -/
  size_eq : bindings.scopes.size = 1 + frames.length
  /-- The lets and functions, and no other nodes, have the scopes from 1 on, in order. -/
  scope_iff : ∀ (node : NodeId) (id : ScopeId), bindings.scopeOf? node = some id ↔
    ∃ index outer, id = index + 1 ∧ frames[index]? = some ⟨node, outer⟩
  /-- The parent of a scope is the scope of the innermost let or function around, or else the scope
  of the host. -/
  parent_eq : ∀ (index : Nat) (frame : ScopeFrame), frames[index]? = some frame →
    ∃ scope, bindings.scopes[index + 1]? = some scope ∧ scope.node = some frame.node ∧
      scope.parent = frame.outer.elim (some 0) bindings.scopeOf?

namespace Binder

variable {binder : Binder} {frames : ScopeFrames}

/-- A binder is in step with the frames: it has opened a scope for each of them, and its path goes
through the scopes of those that were not left. -/
structure Tracks (frames : ScopeFrames) (binder : Binder) : Prop where
  nested : binder.Nested frames.entered
  path_eq : binder.path.map some = frames.inside.map binder.scopeOf? ++ [some 0]

/-- The innermost scope is that of the innermost let or function, or else that of the host. -/
theorem Tracks.head_eq (h : binder.Tracks frames) :
    binder.path.head? = frames.inside.head?.elim (some 0) binder.scopeOf? := by
  have hpath := h.path_eq
  cases hinside : frames.inside with
  | nil =>
      rw [hinside] at hpath
      obtain ⟨id, hid, heq⟩ := List.map_eq_singleton_iff.1 hpath
      rw [hid]
      exact heq
  | cons node inside =>
      rw [hinside] at hpath
      obtain ⟨id, rest, hid, heq, -⟩ := List.map_eq_cons_iff.1 hpath
      rw [hid]
      exact heq

/-- The innermost scope belongs to the innermost let or function. -/
theorem Tracks.current_node (h : binder.Tracks frames) (hsound : binder.Sound) :
    binder.current?.bind Scope.node = frames.inside.head? := by
  have hhead := h.head_eq
  unfold current?
  cases hinside : frames.inside.head? with
  | none =>
      obtain ⟨host, hhost, -, hnone⟩ := hsound.arena.host
      rw [hinside] at hhead
      rw [hhead, Option.elim_none, Option.bind_some, hhost, Option.bind_some, hnone]
  | some node =>
      rw [hinside, Option.elim_some] at hhead
      obtain ⟨id, path, hpath⟩ := hsound.path_eq_cons
      rw [hpath, List.head?_cons] at hhead ⊢
      obtain ⟨index, outer, rfl, hframe⟩ := (h.nested.scope_iff node id).1 hhead.symm
      obtain ⟨scope, hscope, hnode, -⟩ := h.nested.parent_eq index _ hframe
      rw [Option.bind_some, hscope, Option.bind_some, hnode]

/-- Before a tree there are no frames. -/
theorem tracks_start (globals : List String) : (start globals).Tracks {} := by
  refine ⟨⟨rfl, ?_, ?_⟩, rfl⟩
  · intro node id
    simp [start, Bindings.scopeOf?]
  · intro index frame hframe
    simp at hframe

/-- A let or function that is entered for the first time opens the scope of a new frame. -/
theorem Tracks.open_scope (h : binder.Tracks frames) (hsound : binder.Sound) {node : NodeId}
    (hnode : node ∉ frames.entered.map ScopeFrame.node) (kind : BindingKind)
    (names : List (NodeId × String)) :
    (binder.openScope node kind names).Tracks
      ⟨frames.entered ++ [⟨node, frames.inside.head?⟩], node :: frames.inside⟩ := by
  obtain ⟨⟨hsize, hscopes, hparents⟩, hpath⟩ := id h
  have hmem {other : NodeId} {scope : ScopeId} (hother : binder.scopeOf? other = some scope) :
      other ≠ node := by
    rintro rfl
    obtain ⟨index, outer, -, hframe⟩ := (hscopes other scope).1 hother
    exact hnode (List.mem_map.2 ⟨_, List.mem_of_getElem? hframe, rfl⟩)
  have hfresh : binder.scopeOf? node = none :=
    Option.eq_none_iff_forall_ne_some.2 fun scope hscope => hmem hscope rfl
  have hkeeps := keeps_open_scope hfresh kind names
  -- the scopes of the frames around a frame are known, so they are kept
  have houter {outer : Option NodeId} {parent : ScopeId}
      (hparent : some parent = outer.elim (some 0) binder.scopeOf?) :
      some parent = outer.elim (some 0) (binder.openScope node kind names).scopeOf? := by
    cases outer with
    | none => exact hparent
    | some outer => exact (hkeeps.opened outer parent hparent.symm).symm
  refine ⟨⟨?_, ?_, ?_⟩, ?_⟩
  · show (binder.scopes.push _).size = _
    rw [Array.size_push, hsize, List.length_append, List.length_singleton, Nat.add_assoc]
  · intro other scope
    rw [scope_open_scope]
    simp only [ScopeFrame.get_elem_concat]
    split
    next heq =>
      subst heq
      constructor
      · intro hscope
        refine ⟨frames.entered.length, frames.inside.head?, ?_, .inr ⟨rfl, rfl⟩⟩
        rw [← Option.some.inj hscope, hsize, Nat.add_comm]
      · rintro ⟨index, outer, rfl, hframe | ⟨rfl, -⟩⟩
        · exact absurd (List.mem_map.2 ⟨_, List.mem_of_getElem? hframe, rfl⟩) hnode
        · rw [hsize, Nat.add_comm]
    next hne =>
      rw [hscopes]
      constructor
      · rintro ⟨index, outer, rfl, hframe⟩
        exact ⟨index, outer, rfl, .inl hframe⟩
      · rintro ⟨index, outer, rfl, hframe | ⟨-, heq⟩⟩
        · exact ⟨index, outer, rfl, hframe⟩
        · exact absurd (congrArg ScopeFrame.node heq).symm hne
  · intro index frame hframe
    rcases ScopeFrame.get_elem_concat.1 hframe with hframe | ⟨rfl, rfl⟩
    · obtain ⟨scope, hscope, howner, hparent⟩ := hparents index frame hframe
      obtain ⟨parent, -, heq⟩ := hsound.arena.inner _ scope hscope (Nat.succ_ne_zero index)
      refine ⟨scope, hkeeps.scopes _ scope hscope, howner, ?_⟩
      rw [heq] at hparent ⊢
      exact houter hparent
    · obtain ⟨scope, hscope, -, hparent, howner, -⟩ := binder.opened_scope node kind names
      obtain ⟨id, path, hhead⟩ := hsound.path_eq_cons
      refine ⟨scope, ?_, howner, ?_⟩
      · rw [Nat.add_comm, ← hsize]
        exact hscope
      · have hinner := h.head_eq
        rw [hhead, List.head?_cons] at hparent hinner
        rw [hparent]
        exact houter hinner
  · show some binder.scopes.size :: binder.path.map some =
      (binder.openScope node kind names).scopeOf? node ::
        (frames.inside.map (binder.openScope node kind names).scopeOf? ++ [some 0])
    rw [scope_open_scope, if_pos rfl, hpath]
    congr 2
    refine List.map_congr_left fun other hother => ?_
    have hsome : binder.scopeOf? other ∈ binder.path.map some := by
      rw [hpath]
      exact List.mem_append_left _ (List.mem_map_of_mem hother)
    obtain ⟨scope, -, hscope⟩ := List.mem_map.1 hsome
    rw [← hscope]
    exact (hkeeps.opened other scope hscope.symm).symm

/-- A step of a walk keeps the binder in step with the frames, if no node is entered twice. -/
theorem Tracks.visit (h : binder.Tracks frames) (hsound : binder.Sound) (visit : Visit)
    (hnodup : ((frames.visit visit).entered.map ScopeFrame.node).Nodup) :
    (binder.visit visit).Tracks (frames.visit visit) := by
  cases visit with
  | enter node =>
      show (binder.enter node).Tracks (frames.enter node)
      have hnodup : ((frames.enter node).entered.map ScopeFrame.node).Nodup := hnodup
      unfold ScopeFrames.enter at hnodup ⊢
      rcases enter_cases node binder with ⟨hopener, resolutions, heq⟩ | ⟨kind, names, hopener, heq⟩
      · rw [heq, hopener]
        exact ⟨⟨h.nested.size_eq, h.nested.scope_iff, h.nested.parent_eq⟩, h.path_eq⟩
      · rw [hopener] at hnodup
        rw [heq, hopener]
        rw [List.map_append, List.nodup_append] at hnodup
        refine h.open_scope hsound (fun hmem => ?_) kind names
        exact hnodup.2.2 _ hmem _ (List.mem_singleton.2 rfl) rfl
  | leave node =>
      show (binder.leave node).Tracks (frames.leave node)
      unfold leave ScopeFrames.leave
      rw [h.current_node hsound]
      split
      next hnode =>
        refine ⟨h.nested, ?_⟩
        have hpath := h.path_eq
        cases hinside : frames.inside with
        | nil =>
            rw [hinside] at hnode
            cases hnode
        | cons first inside =>
            rw [hinside] at hpath
            show binder.path.tail.map some = inside.map binder.scopeOf? ++ [some 0]
            rw [List.map_tail, hpath]
            rfl
      next => exact h

end Binder

/-- The frames that were entered stay in their order. -/
theorem ScopeFrames.entered_run (frames : ScopeFrames) (visits : List Visit) :
    frames.entered <+: (visits.foldl ScopeFrames.visit frames).entered := by
  induction visits generalizing frames with
  | nil => exact List.prefix_rfl
  | cons first visits ih =>
      refine List.IsPrefix.trans ?_ (ih (frames.visit first))
      cases first with
      | enter node =>
          show _ <+: (frames.enter node).entered
          unfold ScopeFrames.enter
          split
          · exact List.prefix_append ..
          · exact List.prefix_rfl
      | leave node =>
          show _ <+: (frames.leave node).entered
          unfold ScopeFrames.leave
          split <;> exact List.prefix_rfl

/-- Along a walk that enters no node twice the binder keeps in step with the frames. -/
theorem Binder.Tracks.run {binder : Binder} {frames : ScopeFrames} (h : binder.Tracks frames)
    (hsound : binder.Sound) (visits : List Visit)
    (hnodup : ((visits.foldl ScopeFrames.visit frames).entered.map ScopeFrame.node).Nodup) :
    (visits.foldl Binder.visit binder).Tracks (visits.foldl ScopeFrames.visit frames) := by
  induction visits generalizing binder frames with
  | nil => exact h
  | cons first visits ih =>
      have hfirst := ((frames.visit first).entered_run visits).map ScopeFrame.node
      exact ih (h.visit hsound first (hfirst.sublist.nodup hnodup)) (hsound.visit first) hnodup

/-! ## The lets and functions of a tree -/

mutual

/-- The lets and functions of a tree, each before those inside it, with the innermost one around
each. -/
def Tree.frames (outer : Option NodeId) : Tree → List ScopeFrame
  | .identifier _ _ => []
  | .literal _ _ _ => []
  | .placeholder _ _ => []
  | .fault _ => []
  | .paren _ _ inner _ => inner.frames outer
  | .letIn id _ items _ body =>
    ⟨id, outer⟩ :: (Item.listFrames (some id) items ++ body.frames (some id))
  | .function id _ _ _ body => ⟨id, outer⟩ :: body.frames (some id)
  | .record _ _ items _ => Item.listFrames outer items
  | .unary _ _ operand => operand.frames outer
  | .binary _ left _ right => left.frames outer ++ right.frames outer
  | .apply _ callee argument => callee.frames outer ++ argument.frames outer

/-- The lets and functions of an item. -/
def Item.frames (outer : Option NodeId) : Item → List ScopeFrame
  | .definition _ _ _ value => value.frames outer
  | .fault _ => []

/-- The lets and functions of the items of a list. -/
def Item.listFrames (outer : Option NodeId) : List Item → List ScopeFrame
  | [] => []
  | item :: items => item.frames outer ++ Item.listFrames outer items

end

mutual

/-- The frames of a tree are its lets and functions, in the order of its nodes. -/
theorem Tree.map_frames (outer : Option NodeId) (depth : Nat) (tree : Tree) :
    (tree.frames outer).map ScopeFrame.node =
      (tree.nodesAt depth).filterMap fun entry => entry.2.opener? := by
  cases tree with
  | identifier | literal | placeholder | fault => rfl
  | paren _ _ inner _ =>
      rw [Tree.nodesAt, List.filterMap_cons]
      exact inner.map_frames outer (depth + 1)
  | letIn id _ items _ body =>
      show _ = id :: (Item.listNodesAt Node.ofBinding (depth + 1) items ++
        body.nodesAt (depth + 1)).filterMap fun entry => entry.2.opener?
      rw [Tree.frames, List.map_cons, List.map_append, List.filterMap_append,
        Item.map_list_frames Node.ofBinding (fun item => by cases item <;> rfl) _ (depth + 1),
        body.map_frames _ (depth + 1)]
  | function id _ _ _ body =>
      show _ = id :: (body.nodesAt (depth + 1)).filterMap fun entry => entry.2.opener?
      rw [Tree.frames, List.map_cons, body.map_frames _ (depth + 1)]
  | record _ _ items _ =>
      rw [Tree.nodesAt, List.filterMap_cons]
      exact Item.map_list_frames Node.ofField (fun item => by cases item <;> rfl) outer
        (depth + 1) items
  | unary _ _ operand =>
      rw [Tree.nodesAt, List.filterMap_cons]
      exact operand.map_frames outer (depth + 1)
  | binary _ left _ right =>
      show _ = (left.nodesAt (depth + 1) ++ right.nodesAt (depth + 1)).filterMap fun entry =>
        entry.2.opener?
      rw [Tree.frames, List.map_append, List.filterMap_append,
        left.map_frames outer (depth + 1), right.map_frames outer (depth + 1)]
  | apply _ callee argument =>
      show _ = (callee.nodesAt (depth + 1) ++ argument.nodesAt (depth + 1)).filterMap fun entry =>
        entry.2.opener?
      rw [Tree.frames, List.map_append, List.filterMap_append,
        callee.map_frames outer (depth + 1), argument.map_frames outer (depth + 1)]

/-- The frames of a list of items are its lets and functions. -/
theorem Item.map_list_frames (toNode : Item → Node) (hnode : ∀ item, (toNode item).opener? = none)
    (outer : Option NodeId) (depth : Nat) (items : List Item) :
    (Item.listFrames outer items).map ScopeFrame.node =
      (Item.listNodesAt toNode depth items).filterMap fun entry => entry.2.opener? := by
  cases items with
  | nil => rfl
  | cons item items =>
      rw [Item.listFrames, Item.listNodesAt, List.map_append, List.filterMap_append,
        Item.map_list_frames toNode hnode outer depth items]
      congr 1
      cases item with
      | definition _ _ _ value =>
          rw [Item.nodesAt, List.filterMap_cons, hnode]
          exact value.map_frames outer (depth + 1)
      | fault _ =>
          rw [Item.nodesAt, List.filterMap_cons, hnode]
          rfl

end

/-- If the identities of the nodes are distinct, so are those of the lets and functions. -/
theorem Tree.nodup_frames {tree : Tree} (h : tree.ids.Nodup) (outer : Option NodeId) :
    ((tree.frames outer).map ScopeFrame.node).Nodup := by
  have hsublist (entries : List (Nat × Node)) :
      (entries.filterMap fun entry => entry.2.opener?).Sublist
        (entries.map fun entry => entry.2.id) := by
    induction entries with
    | nil => exact .slnil
    | cons entry entries ih =>
        rw [List.filterMap_cons, List.map_cons]
        rcases Binder.enter_cases entry.2 (.start []) with ⟨hnone, -⟩ | ⟨_, _, hsome, -⟩
        · rw [hnone]
          exact ih.cons _
        · rw [hsome]
          exact ih.cons_cons _
  rw [tree.map_frames outer 0]
  exact (hsublist _).nodup h

/-- Inside some lets and functions, the steps of a walk enter further ones and leave them all. -/
def ScopeFrames.Adds (inside : List NodeId) (visits : List Visit) (entered : List ScopeFrame) :
    Prop :=
  ∀ earlier, visits.foldl ScopeFrames.visit ⟨earlier, inside⟩ = ⟨earlier ++ entered, inside⟩

namespace ScopeFrames.Adds

variable {inside : List NodeId} {visits visits' : List Visit} {entered entered' : List ScopeFrame}

/-- Without steps nothing is entered. -/
theorem nil (inside : List NodeId) : Adds inside [] [] := by
  intro earlier
  rw [List.append_nil]
  rfl

/-- Steps may be taken after others. -/
theorem append (h : Adds inside visits entered) (h' : Adds inside visits' entered') :
    Adds inside (visits ++ visits') (entered ++ entered') := by
  intro earlier
  rw [List.foldl_append, h, h', List.append_assoc]

/-- A node that opens no scope is passed, with the nodes below it. -/
theorem pass (h : Adds inside visits entered) (node : Node) (hopener : node.opener? = none)
    (houtside : inside.head? ≠ some node.id) :
    Adds inside (Visit.enter node :: visits ++ [Visit.leave node]) entered := by
  intro earlier
  have henter : enter node ⟨earlier, inside⟩ = ⟨earlier, inside⟩ := by rw [enter, hopener]
  rw [visit, Visit.foldl_around, henter, ← visit, h]
  exact if_neg houtside

/-- A let or function is entered and left again, with the nodes below it. -/
theorem close {id : NodeId} (h : Adds (id :: inside) visits entered) (node : Node)
    (hopener : node.opener? = some id) (hid : node.id = id) :
    Adds inside (Visit.enter node :: visits ++ [Visit.leave node])
      (⟨id, inside.head?⟩ :: entered) := by
  intro earlier
  have henter : enter node ⟨earlier, inside⟩ =
      ⟨earlier ++ [⟨id, inside.head?⟩], id :: inside⟩ := by rw [enter, hopener]
  rw [visit, Visit.foldl_around, henter, ← visit, h, List.append_assoc]
  exact if_pos (by rw [hid]; rfl)

end ScopeFrames.Adds

mutual

/-- A walk through a tree enters its lets and functions and leaves them again. -/
theorem Tree.adds_visits (inside : List NodeId) (tree : Tree) (hnodup : tree.ids.Nodup)
    (houtside : ∀ id ∈ tree.ids, inside.head? ≠ some id) :
    ScopeFrames.Adds inside tree.visits (tree.frames inside.head?) := by
  have hroot : inside.head? ≠ some tree.id := by
    refine houtside tree.id ?_
    rw [Tree.ids, Tree.nodes, Tree.nodesAt.eq_def]
    exact List.mem_cons_self ..
  cases tree with
  | identifier | literal | placeholder | fault =>
      exact (ScopeFrames.Adds.nil inside).pass _ rfl hroot
  | paren id opener inner closer =>
      rw [Tree.ids_paren] at hnodup houtside
      have hinner := inner.adds_visits inside hnodup.of_cons (List.forall_mem_cons.1 houtside).2
      rw [Tree.visits, Tree.frames]
      exact hinner.pass _ rfl hroot
  | letIn id letToken items inToken body =>
      rw [Tree.ids_let_in] at hnodup
      obtain ⟨hid, hparts⟩ := List.nodup_cons.1 hnodup
      obtain ⟨hitems, hbody, -⟩ := List.nodup_append.1 hparts
      have hinside {other : NodeId} (hother : other ∈ items.flatMap Item.ids ++ body.ids) :
          (id :: inside).head? ≠ some other := by
        rintro ⟨⟩
        exact hid hother
      rw [Tree.visits, Tree.frames]
      exact ((Item.adds_list_visits (id :: inside) Node.ofBinding
        (fun item => by cases item <;> rfl) (fun item => by cases item <;> rfl) items hitems
        fun other hother => hinside (List.mem_append_left _ hother)).append
          (body.adds_visits (id :: inside) hbody fun other hother =>
            hinside (List.mem_append_right _ hother))).close _ rfl rfl
  | function id fnToken params arrow body =>
      rw [Tree.ids_function] at hnodup
      obtain ⟨hid, hbody⟩ := List.nodup_cons.1 hnodup
      rw [Tree.visits, Tree.frames]
      refine (body.adds_visits (id :: inside) hbody ?_).close _ rfl rfl
      rintro other hother ⟨⟩
      exact hid hother
  | record id opener items closer =>
      rw [Tree.ids_record] at hnodup houtside
      rw [Tree.visits, Tree.frames]
      exact (Item.adds_list_visits inside Node.ofField (fun item => by cases item <;> rfl)
        (fun item => by cases item <;> rfl) items hnodup.of_cons
        (List.forall_mem_cons.1 houtside).2).pass _ rfl hroot
  | unary id operator operand =>
      rw [Tree.ids_unary] at hnodup houtside
      have hoperand := operand.adds_visits inside hnodup.of_cons (List.forall_mem_cons.1 houtside).2
      rw [Tree.visits, Tree.frames]
      exact hoperand.pass _ rfl hroot
  | binary id left operator right =>
      rw [Tree.ids_binary] at hnodup houtside
      obtain ⟨hleft, hright, -⟩ := List.nodup_append.1 hnodup.of_cons
      obtain ⟨hleftOutside, hrightOutside⟩ :=
        List.forall_mem_append.1 (List.forall_mem_cons.1 houtside).2
      rw [Tree.visits, Tree.frames]
      exact ((left.adds_visits inside hleft hleftOutside).append
        (right.adds_visits inside hright hrightOutside)).pass _ rfl hroot
  | apply id callee argument =>
      rw [Tree.ids_apply] at hnodup houtside
      obtain ⟨hcallee, hargument, -⟩ := List.nodup_append.1 hnodup.of_cons
      obtain ⟨hcalleeOutside, hargumentOutside⟩ :=
        List.forall_mem_append.1 (List.forall_mem_cons.1 houtside).2
      rw [Tree.visits, Tree.frames]
      exact ((callee.adds_visits inside hcallee hcalleeOutside).append
        (argument.adds_visits inside hargument hargumentOutside)).pass _ rfl hroot

/-- A walk through a list of items enters their lets and functions and leaves them again. -/
theorem Item.adds_list_visits (inside : List NodeId) (toNode : Item → Node)
    (hid : ∀ item, (toNode item).id = item.id) (hopener : ∀ item, (toNode item).opener? = none)
    (items : List Item) (hnodup : (items.flatMap Item.ids).Nodup)
    (houtside : ∀ id ∈ items.flatMap Item.ids, inside.head? ≠ some id) :
    ScopeFrames.Adds inside (Item.listVisits toNode items)
      (Item.listFrames inside.head? items) := by
  cases items with
  | nil => exact .nil inside
  | cons item items =>
      rw [List.flatMap_cons] at hnodup houtside
      obtain ⟨hitem, hitems, -⟩ := List.nodup_append.1 hnodup
      obtain ⟨hitemOutside, hitemsOutside⟩ := List.forall_mem_append.1 houtside
      have hrest := Item.adds_list_visits inside toNode hid hopener items hitems hitemsOutside
      rw [Item.listVisits, Item.listFrames]
      refine ScopeFrames.Adds.append ?_ hrest
      cases item with
      | definition id name equals value =>
          have hroot : inside.head? ≠ some (toNode (.definition id name equals value)).id := by
            rw [hid]
            exact hitemOutside id (List.mem_cons_self ..)
          have hvalue := (List.forall_mem_cons.1 hitemOutside).2
          exact (value.adds_visits inside hitem.of_cons hvalue).pass _ (hopener _) hroot
      | fault f =>
          have hroot : inside.head? ≠ some (toNode (.fault f)).id := by
            rw [hid]
            exact hitemOutside f.id (List.mem_cons_self ..)
          exact (ScopeFrames.Adds.nil inside).pass _ (hopener _) hroot

end

/-- The arena of scopes. At every step of the binder the scopes stand in their array as they should,
its path leads from scope to parent up to the scope of the host, and names are looked up along such
paths, within the array. In a tree whose nodes have distinct identities the binder ends where it has
started, with one scope for each let and function beside that of the host, numbered in the order of
the tree, and the parent of each is the scope of the innermost let or function around it. -/
theorem Tree.resolve_arena (tree : Tree) (globals : List String) (hids : tree.ids.Nodup) :
    (∀ visits, visits <+: tree.visits → (Binder.after globals visits).Sound ∧
        ∀ id < (Binder.after globals visits).scopes.size,
          Scope.Searched (Binder.after globals visits).scopes id) ∧
      tree.walk Binder.enter Binder.leave (.start globals) = Binder.after globals tree.visits ∧
      (Binder.after globals tree.visits).path = [0] ∧
      (tree.frames none).map ScopeFrame.node = tree.nodes.filterMap (fun entry => entry.2.opener?) ∧
      (tree.resolve globals).Nested (tree.frames none) := by
  have hstart := Binder.sound_start globals
  have hsteps : tree.visits.foldl ScopeFrames.visit {} = ⟨tree.frames none, []⟩ :=
    tree.adds_visits [] hids (fun _ _ => nofun) []
  have htracks := (Binder.tracks_start globals).run hstart tree.visits
    (by rw [hsteps]; exact Tree.nodup_frames hids none)
  rw [hsteps] at htracks
  have hwalk := tree.walk_eq_foldl Binder.enter Binder.leave (.start globals)
  refine ⟨fun visits _ => ?_, hwalk, ?_, tree.map_frames none 0, ?_⟩
  · have hsound := hstart.run visits
    exact ⟨hsound, fun id hlt => hsound.arena.searched hlt⟩
  · obtain ⟨id, hpath, hid⟩ := List.map_eq_singleton_iff.1 htracks.path_eq
    rw [Binder.after, hpath, Option.some.inj hid]
  · rw [Tree.resolve, hwalk]
    exact htracks.nested

/-- In `let x = ... in fn x => x` the let has scope 1 and the function scope 2, inside scope 1. -/
theorem Tree.resolve_arena_shadowed :
    let x : Token := ⟨.identifier, "x", .empty .nowhere, false, none⟩
    let tree : Tree := .letIn 5 ⟨.letWord, "let", .empty .nowhere, false, none⟩
      [.definition 1 x ⟨.equals, "=", .empty .nowhere, false, none⟩
        (.placeholder 0 ⟨.ellipsis, "...", .empty .nowhere, false, none⟩)]
      ⟨.inWord, "in", .empty .nowhere, false, none⟩
      (.function 4 ⟨.fnWord, "fn", .empty .nowhere, false, none⟩ [.name 2 x]
        ⟨.arrow, "=>", .empty .nowhere, false, none⟩ (.identifier 3 x))
    tree.ids.Nodup ∧ (tree.resolve ["x"]).scopes.size = 3 ∧
      (tree.resolve ["x"]).scopeOf? 5 = some 1 ∧ (tree.resolve ["x"]).scopeOf? 4 = some 2 ∧
      ∃ scope, (tree.resolve ["x"]).scopes[2]? = some scope ∧ scope.parent = some 1 := by
  intro x tree
  have hids : tree.ids.Nodup := by decide
  obtain ⟨-, -, -, -, hsize, hscopes, hparents⟩ := tree.resolve_arena ["x"] hids
  have hlet : (tree.resolve ["x"]).scopeOf? 5 = some 1 := (hscopes 5 1).2 ⟨0, none, rfl, rfl⟩
  have hfunction : (tree.resolve ["x"]).scopeOf? 4 = some 2 :=
    (hscopes 4 2).2 ⟨1, some 5, rfl, rfl⟩
  obtain ⟨scope, hscope, -, hparent⟩ := hparents 1 ⟨4, some 5⟩ rfl
  exact ⟨hids, hsize, hlet, hfunction, scope, hscope, hparent.trans hlet⟩

end LetScript
