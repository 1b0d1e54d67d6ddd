import LetScript.Proofs.Parser.Identities
import LetScript.Proofs.Parser.Precedence
import LetScript.Proofs.Parser.Trace
import LetScript.Proofs.Tree.Heights

/-!
# The parser checks true heights

Whenever the parser checks the height of a tree, the trees that it has checked before may share
nodes with it, or may have been given up after a fault. No identity is used twice, not even for
nodes that were given up, so all trees that are ever checked in a run agree on the height of each
identity. A log is consistent as long as this is true. So a table of the heights found in earlier
checks always gives the true height, and the tree that is parsed in the end is low
(`Tree.parse_heights`). A parser that decides by this table takes the same run
(`Tree.history_by_table`): `Records` says that two parsers, which may differ in their checks, go the
same way from a consistent log and keep it consistent.
-/

namespace LetScript

namespace Parser

/-- The tree whose height was checked, and whether it was found low enough. -/
def Event.check? : Event → Option (Tree × Bool)
  | checked tree passed => some (tree, passed)
  | moved _ | ended .. | stalled _ => none

/-- The checks of heights among some events, in their order. -/
def Event.checks (events : List Event) : List (Tree × Bool) := events.filterMap Event.check?

namespace Log

/-- The marks of the trees that were checked so far. -/
def checkedMarks (log : Log) : List Mark :=
  (Event.checks log.events).flatMap fun check => (Node.tree check.1).marks

/-- The table of the heights that were found in the checks so far. -/
def heights (log : Log) : Node.HeightTable :=
  Node.tableAfter ((Event.checks log.events.reverse).map Prod.fst)

/-- Some marks and those of the trees that were checked so far agree on the height of each identity,
and every check was decided by the height of its tree. -/
structure Consistent (marks : List Mark) (log : Log) : Prop where
  agree : ∃ heights : NodeId → Nat, ∀ mark ∈ marks ++ log.checkedMarks,
    mark.1 < log.state.nextId ∧ heights mark.1 = mark.2
  decided : ∀ check ∈ Event.checks log.events, check.2 = decide (check.1.height ≤ maxHeight)

namespace Consistent

variable {marks marks' : List Mark} {log log' : Log}

/-- Marks may be forgotten. -/
theorem mono (h : log.Consistent marks) (hsubset : marks' ⊆ marks) : log.Consistent marks' := by
  obtain ⟨heights, hheights⟩ := h.agree
  refine ⟨⟨heights, fun mark hmark => hheights mark ?_⟩, h.decided⟩
  rcases List.mem_append.1 hmark with hmark | hmark
  · exact List.mem_append_left _ (hsubset hmark)
  · exact List.mem_append_right _ hmark

/-- Identities may be taken without a check. -/
theorem of_le (h : log.Consistent marks)
    (hchecks : Event.checks log'.events = Event.checks log.events)
    (hle : log.state.nextId ≤ log'.state.nextId) : log'.Consistent marks := by
  obtain ⟨heights, hheights⟩ := h.agree
  refine ⟨⟨heights, fun mark hmark => ?_⟩, hchecks ▸ h.decided⟩
  unfold checkedMarks at hmark
  rw [hchecks] at hmark
  exact ⟨Nat.lt_of_lt_of_le (hheights mark hmark).1 hle, (hheights mark hmark).2⟩

/-- A node with a new identity may have any height. -/
theorem fresh (h : log.Consistent marks) {id : NodeId} (hid : log.state.nextId ≤ id) (height : Nat)
    (hchecks : Event.checks log'.events = Event.checks log.events)
    (hlt : id < log'.state.nextId) : log'.Consistent ((id, height) :: marks) := by
  obtain ⟨heights, hheights⟩ := h.agree
  refine ⟨⟨fun other => if other = id then height else heights other, ?_⟩, hchecks ▸ h.decided⟩
  unfold checkedMarks
  rw [hchecks]
  refine List.forall_mem_cons.2 ⟨⟨hlt, if_pos rfl⟩, fun mark hmark => ?_⟩
  obtain ⟨hold, hmark⟩ := hheights mark hmark
  have hlt' : mark.1 < id := Nat.lt_of_lt_of_le hold hid
  exact ⟨Nat.lt_trans hlt' hlt, (if_neg (Nat.ne_of_lt hlt')).trans hmark⟩

/-- A tree whose marks are known may be checked. -/
theorem check (h : log.Consistent marks) {tree : Tree} (hmarks : (Node.tree tree).marks ⊆ marks)
    {passed : Bool} (hpassed : passed = decide (tree.height ≤ maxHeight)) :
    (log.note (.checked tree passed)).Consistent marks := by
  obtain ⟨heights, hheights⟩ := h.agree
  refine ⟨⟨heights, fun mark hmark => hheights mark ?_⟩, ?_⟩
  · rcases List.mem_append.1 hmark with hmark | hmark
    · exact List.mem_append_left _ hmark
    · rcases List.mem_append.1 hmark with hmark | hmark
      · exact List.mem_append_left _ (hmarks hmark)
      · exact List.mem_append_right _ hmark
  · exact List.forall_mem_cons.2 ⟨hpassed, h.decided⟩

/-- All trees that were checked agree on the height of each identity. -/
theorem fits (h : log.Consistent marks) :
    ∃ heights : NodeId → Nat, (∀ mark ∈ marks, heights mark.1 = mark.2) ∧
      ∀ check ∈ Event.checks log.events.reverse, (Node.tree check.1).Fits heights := by
  obtain ⟨heights, hheights⟩ := h.agree
  refine ⟨heights, fun mark hmark => (hheights mark (List.mem_append_left _ hmark)).2, ?_⟩
  intro check hcheck mark hmark
  rw [Event.checks, List.filterMap_reverse, List.mem_reverse] at hcheck
  refine (hheights mark (List.mem_append_right _ ?_)).2
  exact List.mem_flatMap.2 ⟨check, hcheck, hmark⟩

/-- The table gives the true height of a tree whose marks are known. -/
theorem measure_eq (h : log.Consistent marks) {tree : Tree}
    (hmarks : (Node.tree tree).marks ⊆ marks) :
    ((Node.tree tree).measure log.heights).1 = tree.height := by
  obtain ⟨heights, hknown, hchecked⟩ := h.fits
  have htable : log.heights.Sound heights :=
    Node.table_after_sound (List.forall_mem_map.2 hchecked)
  exact ((Node.tree tree).measure_sound (fun mark hmark => hknown mark (hmarks hmark)) _ htable).1

end Consistent

end Log

/-- Check the height of a tree by the table of the heights that were found before. A tree that is
low by the table only must not be continued, and raises a fault that the plain parser never
raises. -/
def Traced.checkByTable (stream : TokenStream) : HeightCheck := fun left height continuation log =>
  let tree := continuation.attach left
  let low : Bool := ((Node.tree tree).measure log.heights).1 ≤ maxHeight
  if low then
    if hle : max height continuation.height + 1 ≤ maxHeight then
      .ok ⟨continuation, hle⟩ (log.note (.checked tree low))
    else raiseHere stream .notImplemented (log.note (.checked tree low))
  else raiseHere stream (.nestingTooDeep maxHeight) (log.note (.checked tree low))

/-! ## Parsers that keep their logs consistent -/

/-- A log is consistent after an outcome: with the marks of a result, or with that of a fault. -/
def Recorded {α : Type} (given : List Mark) (marks : α → List Mark) :
    EStateM.Result Fault Log α → Prop
  | .ok result log => log.Consistent (given ++ marks result)
  | .error fault log => log.Consistent (given ++ [(fault.id, 1)])

/-- Two parsers go the same way from a consistent log and keep it consistent, whatever other marks
are given. They know some marks, which are among those of the result or are given up with a
fault. -/
def Records {α : Type} (p q : Traced α) (known : List Mark) (marks : α → List Mark) : Prop :=
  ∀ given log, log.Consistent (given ++ known) → p log = q log ∧ Recorded given marks (p log)

namespace Records

variable {α β : Type} {stream : TokenStream} {p q : Traced α} {known : List Mark}
  {marks : α → List Mark}

/-- A parser after another one. -/
theorem bind {f g : α → Traced β} {marks' : β → List Mark} (hp : Records p q known marks)
    (hf : ∀ value, Records (f value) (g value) (marks value) marks') :
    Records (p >>= f) (q >>= g) known marks' := by
  intro given log hlog
  obtain ⟨hsame, hfirst⟩ := hp given log hlog
  change EStateM.bind p f log = EStateM.bind q g log ∧ Recorded given marks' (EStateM.bind p f log)
  unfold EStateM.bind
  rw [← hsame]
  cases hcase : p log with
  | ok value log' =>
      rw [hcase] at hfirst
      exact hf value given log' hfirst
  | error fault log' =>
      rw [hcase] at hfirst
      exact ⟨rfl, hfirst⟩

/-- A result without a step has known marks. -/
theorem pure {value : α} (h : marks value ⊆ known) :
    Records (Pure.pure value) (Pure.pure value) known marks :=
  fun given _ hlog => ⟨rfl, hlog.mono (by grind)⟩

/-- What is known stays known while a part is parsed. -/
theorem frame (h : Records p q [] marks) (known : List Mark) :
    Records p q known fun result => known ++ marks result := by
  intro given log hlog
  obtain ⟨hsame, houtcome⟩ := h (given ++ known) log (by rwa [List.append_nil])
  refine ⟨hsame, ?_⟩
  revert houtcome
  cases p log with
  | ok result log' =>
      intro houtcome
      show log'.Consistent _
      rw [← List.append_assoc]
      exact houtcome
  | error fault log' =>
      intro houtcome
      exact Log.Consistent.mono houtcome (by simp)

/-- A step of the plain parser that makes no node. -/
theorem step {q : Parse α} {ids : α → List NodeId} (h : Numbers q [] ids) :
    Records (.step q) (.step q) known fun _ => known := by
  intro given log hlog
  have houtcome := h log.state ⟨.nil, fun _ hid => absurd hid List.not_mem_nil⟩
  refine ⟨rfl, ?_⟩
  unfold Traced.step
  cases hcase : q log.state with
  | ok result s =>
      rw [hcase] at houtcome
      exact hlog.of_le rfl houtcome.1
  | error fault s =>
      rw [hcase] at houtcome
      have hfresh : (log.move s).Consistent ((fault.id, 1) :: (given ++ known)) :=
        hlog.fresh houtcome.1 1 rfl houtcome.2
      exact hfresh.mono (by simp)

/-- A raised fault takes a new identity, and there is no result. -/
theorem raise (cause : Cause) (token : Token) :
    Records (.step (Parser.raise stream cause token)) (.step (Parser.raise stream cause token))
      known marks := by
  have hraise : Numbers (Parser.raise stream cause token : Parse α) [] fun _ => [] :=
    .raise cause token
  exact fun given log hlog => step hraise given log hlog

/-- A fault raised at the current token. -/
theorem raise_here (cause : Cause) :
    Records (Traced.raiseHere stream cause) (Traced.raiseHere stream cause) known marks :=
  (step .current).bind fun token => raise cause token

/-- A token that is required. -/
theorem expect (kind : Kind) :
    Records (Traced.expect stream kind) (Traced.expect stream kind) known fun _ => known := by
  refine (step .current).bind fun token => ?_
  split
  · exact step .advance
  · exact raise _ token

/-- A node takes a new identity, and the marks of its children are known. -/
theorem node {node : NodeId → α} {toNode : α → Node} (hid : ∀ id, (toNode (node id)).id = id)
    (hchildren : ∀ id, ∀ child ∈ (toNode (node id)).children, child.marks ⊆ known) :
    Records (Traced.step freshId >>= fun id => Pure.pure (node id))
      (Traced.step freshId >>= fun id => Pure.pure (node id)) known
      fun result => (toNode result).marks := by
  intro given log hlog
  have hfresh : (log.move { log.state with nextId := log.state.nextId + 1 }).Consistent
      ((log.state.nextId, (toNode (node log.state.nextId)).height) :: (given ++ known)) :=
    hlog.fresh (Nat.le_refl _) _ rfl (Nat.lt_succ_self _)
  have hmarks := Node.marks_subset (hchildren log.state.nextId)
  rw [hid] at hmarks
  exact ⟨rfl, hfresh.mono (by grind)⟩

/-- An activity is what it consists of. -/
theorem during (h : Records p q known marks) (activity : Activity) :
    Records (.during activity p) (.during activity q) known marks := by
  intro given log hlog
  obtain ⟨hsame, houtcome⟩ := h given log hlog
  unfold Traced.during
  rw [← hsame]
  refine ⟨rfl, ?_⟩
  cases hcase : p log with
  | ok result log' =>
      rw [hcase] at houtcome
      exact houtcome.of_le rfl (Nat.le_refl _)
  | error fault log' =>
      rw [hcase] at houtcome
      exact houtcome.of_le rfl (Nat.le_refl _)

/-- One more expression takes the identities that are taken inside it. -/
theorem nested (h : Records p q known marks) : Records (.nested p) (.nested q) known marks := by
  intro given log hlog
  obtain ⟨hsame, houtcome⟩ := h given
    { log with state := { log.state with nesting := log.state.nesting + 1 } }
    (hlog.of_le rfl (Nat.le_refl _))
  refine ⟨?_, Traced.outcome_nested (fun _ _ _ hlog => hlog.of_le rfl (Nat.le_refl _))
    (fun _ _ _ hlog => hlog.of_le rfl (Nat.le_refl _)) houtcome⟩
  unfold Traced.nested
  rw [hsame]

/-- A part that a fault may stand for. -/
theorem recovering {kind : Kind} (h : Records p q [] marks) (ofFault : Fault → α)
    (hfault : ∀ fault, marks (ofFault fault) ⊆ [(fault.id, 1)]) :
    Records (.recovering stream kind ofFault p) (.recovering stream kind ofFault q) [] marks := by
  intro given log hlog
  obtain ⟨hsame, houtcome⟩ := h given
    { log with state := { log.state with awaited := ⟨kind, log.state.pos⟩ :: log.state.awaited } }
    (hlog.of_le rfl (Nat.le_refl _))
  have hmoved (fault : Fault) (log : Log) (hlog : log.Consistent (given ++ [(fault.id, 1)])) :
      (log.move { log.state with pos := stream.significant log.state.pos }).Consistent
        (given ++ [(fault.id, 1)]) := hlog.of_le rfl (Nat.le_refl _)
  refine ⟨?_, Traced.outcome_recovering stream (fun _ _ _ hlog => hlog.of_le rfl (Nat.le_refl _))
    hmoved (fun fault log hlog => (hmoved fault log hlog).mono ?_) houtcome⟩
  · unfold Traced.recovering
    rw [hsame]
  · exact List.append_subset.2 ⟨List.subset_append_left ..,
      List.subset_append_of_subset_right _ (hfault fault)⟩

/-- Items up to a terminator. -/
theorem items_until {activity : Activity} {terminator : Kind} (h : Records p q [] marks)
    (ofFault : Fault → α) (hfault : ∀ fault, marks (ofFault fault) ⊆ [(fault.id, 1)])
    (items : List α) :
    Records (Traced.itemsUntil stream activity terminator ofFault p items)
      (Traced.itemsUntil stream activity terminator ofFault q items) (items.flatMap marks)
      fun all => all.flatMap marks := by
  intro given log hlog
  -- the marks of the items found so far are given to the next round
  have hround (items : List α) (log : Log) (hlog : log.Consistent (given ++ items.flatMap marks)) :
      Traced.during activity (.recovering stream terminator ofFault p)
          (log.move { log.state with pos := stream.significant log.state.pos }) =
        Traced.during activity (.recovering stream terminator ofFault q)
          (log.move { log.state with pos := stream.significant log.state.pos }) ∧
      Recorded (given ++ items.flatMap marks) marks
        (Traced.during activity (.recovering stream terminator ofFault p)
          (log.move { log.state with pos := stream.significant log.state.pos })) := by
    refine (h.recovering ofFault hfault).during activity _ _ ?_
    rw [List.append_nil]
    exact hlog.of_le rfl (Nat.le_refl _)
  fun_induction Traced.itemsUntil stream activity terminator ofFault p items log with
  | case1 items log pos hkind =>
      have hmoved : (log.move { log.state with pos }).Consistent (given ++ items.flatMap marks) :=
        hlog.of_le rfl (Nat.le_refl _)
      rw [Traced.itemsUntil, if_pos hkind]
      exact ⟨rfl, hmoved.mono (by grind)⟩
  | case2 items log pos hkind fault log' hcase =>
      obtain ⟨hsame, houtcome⟩ := hround items log hlog
      rw [hcase] at hsame houtcome
      rw [Traced.itemsUntil, if_neg hkind, ← hsame]
      exact ⟨rfl, Log.Consistent.mono houtcome (by simp)⟩
  | case3 items log pos hkind found log' hcase hlt ih =>
      obtain ⟨hsame, houtcome⟩ := hround items log hlog
      rw [hcase] at hsame houtcome
      have hnext : Traced.itemsUntil stream activity terminator ofFault q items log =
          Traced.itemsUntil stream activity terminator ofFault q (found :: items) log' := by
        rw [Traced.itemsUntil, if_neg hkind, ← hsame]
        simp only [if_pos hlt]
      rw [hnext]
      exact ih (Log.Consistent.mono houtcome (by simp))
  | case4 items log pos hkind found log' hcase hle =>
      obtain ⟨hsame, houtcome⟩ := hround items log hlog
      rw [hcase] at hsame houtcome
      have hnoted : (log'.note (.stalled activity)).Consistent
          (given ++ items.flatMap marks ++ marks found) := houtcome.of_le rfl (Nat.le_refl _)
      rw [Traced.itemsUntil, if_neg hkind, ← hsame]
      simp only [if_neg hle]
      exact ⟨trivial, hnoted.mono (by grind)⟩

end Records

/-! ## Layers -/

section Layers

variable {stream : TokenStream} {operand operand' : Power → Traced Tree}
  (h : ∀ power, Records (operand power) (operand' power) [] fun tree => (Node.tree tree).marks)

include h

/-- A definition keeps the log consistent. -/
theorem definition_records (toNode : Item → Node)
    (hid : ∀ id name equals value, (toNode (.definition id name equals value)).id = id)
    (hchildren : ∀ id name equals value,
      (toNode (.definition id name equals value)).children = [.tree value]) (power : Power) :
    Records (Traced.definition stream operand power) (Traced.definition stream operand' power) []
      fun item => (toNode item).marks := by
  refine (Records.expect _).bind fun name => (Records.expect _).bind fun equals =>
    (h power).bind fun value => .node (fun id => hid id name equals value) fun id => ?_
  rw [hchildren]
  exact List.forall_mem_singleton.2 (List.Subset.refl _)

/-- An item of a let keeps the log consistent. -/
theorem let_item_records :
    Records (Traced.letItem stream operand) (Traced.letItem stream operand') []
      fun item => (Node.ofBinding item).marks := by
  refine ((definition_records h Node.ofBinding (fun _ _ _ _ => rfl) (fun _ _ _ _ => rfl)
    .letIn).recovering Item.fault Node.marks_fault).bind fun item =>
    (Records.step .current_kind).bind fun kind => ?_
  split
  · exact (Records.expect _).bind fun _ => .pure (List.Subset.refl _)
  · exact .pure (List.Subset.refl _)

/-- An item of a record keeps the log consistent. -/
theorem record_item_records :
    Records (Traced.recordItem stream operand) (Traced.recordItem stream operand') []
      fun item => (Node.ofField item).marks :=
  ((definition_records h Node.ofField (fun _ _ _ _ => rfl) (fun _ _ _ _ => rfl)
    .record).recovering Item.fault Node.marks_fault).bind fun _ =>
    (Records.expect _).bind fun _ => .pure (List.Subset.refl _)

/-- An expression that is read by the rule of its first token keeps the log consistent. -/
theorem parse_prefix_records (rule : PrefixRule) :
    Records (Traced.parsePrefix stream operand rule) (Traced.parsePrefix stream operand' rule) []
      fun tree => (Node.tree tree).marks := by
  have hitems (toNode : Item → Node) (items : List Item) :
      ∀ child ∈ items.map toNode, child.marks ⊆ items.flatMap fun item => (toNode item).marks := by
    grind
  cases rule with
  | identifier | placeholder | invalid =>
      exact (Records.step .advance).bind fun _ =>
        .node (fun _ => rfl) fun _ => List.forall_mem_nil _
  | literal =>
      refine (Records.step .current).bind fun token => ?_
      cases Binary64.read? token.value with
      | none => exact .raise _ _
      | some value =>
          exact (Records.step .advance).bind fun _ =>
            .node (fun _ => rfl) fun _ => List.forall_mem_nil _
  | function =>
      -- parameters have identities, but no heights
      have hparam : Records (Traced.param stream) (Traced.param stream) [] fun _ => [] :=
        (Records.expect _).bind fun _ => (Records.step .fresh_id).bind fun _ =>
          .pure (List.nil_subset _)
      exact (Records.step .advance).bind fun _ =>
        (hparam.items_until Param.fault (fun _ => List.nil_subset _) []).bind fun params =>
        (Records.expect _).bind fun _ => ((h .function).frame _).bind fun body =>
        .node (fun _ => rfl) fun _ => List.forall_mem_singleton.2 (List.subset_append_right ..)
  | letIn =>
      refine (Records.step .advance).bind fun _ =>
        ((let_item_records h).items_until Item.fault Node.marks_fault []).bind fun items =>
        (Records.expect _).bind fun _ => ((h .letIn).frame _).bind fun body =>
        .node (fun _ => rfl) fun id => ?_
      refine List.forall_mem_append.2 ⟨fun child hchild => ?_, List.forall_mem_singleton.2 ?_⟩
      · exact List.subset_append_of_subset_left _ (hitems Node.ofBinding items child hchild)
      · exact List.subset_append_right ..
  | record =>
      exact (Records.step .advance).bind fun _ =>
        ((record_item_records h).items_until Item.fault Node.marks_fault []).bind fun items =>
        (Records.expect _).bind fun _ =>
        .node (fun _ => rfl) fun id => hitems Node.ofField items
  | group =>
      exact (Records.step .advance).bind fun _ =>
        ((h .lowest).recovering Tree.fault Node.marks_fault).bind fun inner =>
        (Records.expect _).bind fun _ =>
        .node (fun _ => rfl) fun _ => List.forall_mem_singleton.2 (List.Subset.refl _)
  | sign =>
      exact (Records.step .advance).bind fun _ => (h .additive).bind fun _ =>
        .node (fun _ => rfl) fun _ => List.forall_mem_singleton.2 (List.Subset.refl _)

/-- What continues an expression keeps the log consistent, if the marks of the left operand are
known. -/
theorem parse_infix_records (left : Tree) (power : Power) (rule : InfixRule) :
    Records (Traced.parseInfix stream operand power rule)
      (Traced.parseInfix stream operand' power rule) (Node.tree left).marks
      fun continuation => (Node.tree (continuation.attach left)).marks := by
  have hoperands (right : Tree) : ∀ child ∈ [Node.tree left, Node.tree right],
      child.marks ⊆ (Node.tree left).marks ++ (Node.tree right).marks := by
    simp
  cases rule with
  | binary =>
      exact (Records.step .advance).bind fun operator => ((h power).frame _).bind fun right =>
        .node (fun _ => rfl) fun _ => hoperands right
  | apply =>
      exact ((h .apply).frame _).bind fun argument =>
        .node (fun _ => rfl) fun _ => hoperands argument

omit h in
/-- The check of a height keeps the log consistent and is decided as by the table, if the height of
the left operand is known. -/
theorem check_height_records {left : Tree} {height : Nat} (hheight : height = left.height)
    (continuation : Continuation) :
    Records (Traced.checkHeight stream left height continuation)
      (Traced.checkByTable stream left height continuation)
      (Node.tree (continuation.attach left)).marks
      fun found => (Node.tree (found.1.attach left)).marks := by
  have hattach : (continuation.attach left).height = max height continuation.height + 1 := by
    rw [Continuation.height_attach, hheight]
  intro given log hlog
  have hmarks : (Node.tree (continuation.attach left)).marks ⊆
      given ++ (Node.tree (continuation.attach left)).marks := List.subset_append_right ..
  have hmeasure := hlog.measure_eq hmarks
  rw [hattach] at hmeasure
  unfold Traced.checkHeight Traced.checkByTable
  simp only [hmeasure]
  by_cases hle : max height continuation.height + 1 ≤ maxHeight
  · have hlow : decide (max height continuation.height + 1 ≤ maxHeight) = true := decide_eq_true hle
    simp only [dif_pos hle, hlow, if_true]
    refine ⟨rfl, hlog.check hmarks ?_⟩
    rw [hattach]
    exact hlow.symm
  · have hhigh : decide (max height continuation.height + 1 ≤ maxHeight) = false :=
      decide_eq_false hle
    simp only [dif_neg hle, hhigh, Bool.false_eq_true, if_false]
    refine Records.raise_here _ given _ (hlog.check hmarks ?_)
    rw [hattach]
    exact hhigh.symm

/-- Continuing an expression of known height keeps the log consistent. -/
theorem continue_from_records (grammar : Grammar) (floor : Power) (left : Tree) (height : Nat)
    (hheight : height = left.height) :
    Records (Traced.continueFrom stream grammar (.checkHeight stream) operand floor left height)
      (Traced.continueFrom stream grammar (.checkByTable stream) operand' floor left height)
      (Node.tree left).marks fun tree => (Node.tree tree).marks := by
  induction left, height using Parser.continueFrom.induct with
  | case1 left height ih =>
      rw [Traced.continueFrom, Traced.continueFrom]
      refine (Records.step .current_kind).bind fun kind => ?_
      cases grammar.infixRule kind with
      | none => exact .pure (List.Subset.refl _)
      | some found =>
          obtain ⟨power, rule⟩ := found
          by_cases hlt : floor < power
          · simp only [if_pos hlt]
            refine (((parse_infix_records h left power rule).bind fun continuation =>
              check_height_records hheight continuation).during .continuation).bind
              fun found => ih found.1 found.2 ?_
            rw [Continuation.height_attach, ← hheight]
          · simp only [if_neg hlt]
            exact .pure (List.Subset.refl _)

end Layers

/-- Parsing an expression keeps the log consistent. -/
theorem expression_records {stream : TokenStream} (grammar : Grammar) (room : Nat)
    (floor : Power) :
    Records (Traced.expression stream grammar (.checkHeight stream) room floor)
      (Traced.expression stream grammar (.checkByTable stream) room floor) []
      fun tree => (Node.tree tree).marks := by
  induction room generalizing floor with
  | zero => exact (Records.raise_here _).during .expression
  | succ room ih =>
      rw [Traced.expression, Traced.expression]
      refine ((Records.step .current).bind fun token => ?_).nested.during .expression
      cases grammar.prefixRule token.kind with
      | none => exact .raise _ _
      | some rule =>
          exact (parse_prefix_records ih rule).bind fun left =>
            continue_from_records ih grammar floor left left.height rfl

/-- Parsing a program keeps the log consistent. -/
theorem program_records (stream : TokenStream) (grammar : Grammar) :
    Records (Traced.program stream grammar (.checkHeight stream))
      (Traced.program stream grammar (.checkByTable stream)) []
      fun tree => (Node.tree tree).marks :=
  (expression_records grammar maxNesting .lowest).bind fun _ =>
    (Records.expect _).bind fun _ => .pure (List.Subset.refl _)

/-- Nothing was checked in the first state. -/
theorem Log.consistent_initial : Log.Consistent [] {} :=
  ⟨⟨fun _ => 0, fun _ hmark => absurd hmark List.not_mem_nil⟩,
    fun _ hcheck => absurd hcheck List.not_mem_nil⟩

end Parser

/-- A parser that decides by the table of the heights that it has found takes the same run as the
one that knows the heights: it gives the same tree, and the same happens on the way. -/
theorem Tree.history_by_table (tokens : Array Token) :
    Tree.historyBy Parser.Traced.checkByTable tokens = Tree.history tokens := by
  have hsame := (Parser.program_records (.ofTokens tokens) .standard [] {}
    Parser.Log.consistent_initial).1
  rw [Tree.history, Tree.historyBy, Tree.historyBy, ← hsame]

/-- All trees that are checked while a token sequence is parsed agree on the height of each
identity, and every check is decided by the height of its tree. -/
theorem Tree.history_checks (tokens : Array Token) :
    ∃ heights : NodeId → Nat, ∀ check ∈ Parser.Event.checks (Tree.history tokens).2,
      (Node.tree check.1).Fits heights ∧ check.2 = decide (check.1.height ≤ maxHeight) := by
  have hfinal (log : Parser.Log) {marks : List Mark} (hlog : log.Consistent marks) :
      ∃ heights : NodeId → Nat, ∀ check ∈ Parser.Event.checks log.events.reverse,
        (Node.tree check.1).Fits heights ∧ check.2 = decide (check.1.height ≤ maxHeight) := by
    obtain ⟨heights, -, hchecked⟩ := hlog.fits
    refine ⟨heights, fun check hcheck => ⟨hchecked check hcheck, hlog.decided check ?_⟩⟩
    rwa [Parser.Event.checks, List.filterMap_reverse, List.mem_reverse] at hcheck
  have houtcome := (Parser.program_records (.ofTokens tokens) .standard [] {}
    Parser.Log.consistent_initial).2
  unfold Tree.history Tree.historyBy
  cases hcase : Parser.Traced.program (.ofTokens tokens) .standard
      (Parser.Traced.checkHeight (.ofTokens tokens)) {} with
  | ok tree log =>
      rw [hcase] at houtcome
      exact hfinal log houtcome
  | error fault log =>
      rw [hcase] at houtcome
      exact hfinal log houtcome

/-- Whenever the height of a tree is checked while a token sequence is parsed, a table of the
heights that were found in the checks before gives the true height of the tree, by which the check
is decided. The height of a node is one more than the greatest height of its children. In the tree
that is parsed no operator or application is taller than the limit, and the tree itself exceeds the
limit by at most two for each expression that may be nested. -/
theorem Tree.parse_heights (tokens : Array Token) :
    (Tree.history tokens).1 = Tree.parse tokens ∧
      (∀ before tree passed after,
        Parser.Event.checks (Tree.history tokens).2 = before ++ (tree, passed) :: after →
        ((Node.tree tree).measure (Node.tableAfter (before.map Prod.fst))).1 = tree.height ∧
          (passed = true ↔ tree.height ≤ maxHeight)) ∧
      (∀ node : Node, node.height = Node.tallest node.children + 1) ∧
      (Tree.parse tokens).Bounded ∧ (Tree.parse tokens).height ≤ maxHeight + 2 * maxNesting := by
  have hregular := Tree.parse_regular tokens
  refine ⟨Tree.history_tree tokens, ?_, Node.height_eq, hregular.bounded, ?_⟩
  · intro before tree passed after hchecks
    obtain ⟨heights, hheights⟩ := Tree.history_checks tokens
    rw [hchecks] at hheights
    obtain ⟨hbefore, hlater⟩ := List.forall_mem_append.1 hheights
    obtain ⟨hfits, hdecided⟩ := (List.forall_mem_cons.1 hlater).1
    have htable : (Node.tableAfter (before.map Prod.fst)).Sound heights :=
      Node.table_after_sound (List.forall_mem_map.2 fun check hcheck => (hbefore check hcheck).1)
    refine ⟨((Node.tree tree).measure_sound hfits _ htable).1, ?_⟩
    change passed = decide (tree.height ≤ maxHeight) at hdecided
    rw [hdecided]
    exact decide_eq_true_iff
  · have hheight := (Tree.parse tokens).height_le_of_bounded hregular.bounded
    have hnesting := hregular.nested
    omega

end LetScript
