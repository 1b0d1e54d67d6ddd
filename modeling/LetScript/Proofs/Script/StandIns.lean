import LetScript.Proofs.Scope.Identifiers
import LetScript.Proofs.Script.Program
import LetScript.Proofs.Tree.Contents

/-!
# Stand-ins for what cannot be compiled

Where a part of a program cannot be compiled, the generated code throws an error in its place. These
stand-ins are exactly those that the nodes of the tree ask for (`Tree.stand_ins_agree`): one for
each fault, unresolved identifier, placeholder and operator without a counterpart. The operands of
such an operator are dropped with all nodes in them. Every stand-in for an error of the program has
its diagnostic among those of the tree.
-/

namespace LetScript

/-! ## The stand-ins of a tree -/

/-- What the generated code stands in for by throwing an error. -/
inductive StandIn where
  | syntaxError (diagnostic : Diagnostic)
  | unresolved (diagnostic : Diagnostic)
  | placeholder
  | operator (text : String)

namespace StandIn

/-- The message of the error that is thrown. -/
def message : StandIn → String
  | syntaxError diagnostic => "Syntax error: " ++ diagnostic.message
  | unresolved diagnostic => diagnostic.message
  | placeholder => "Not Implemented"
  | operator text => "Uncompilable operator: " ++ text

/-- The error of the program that is stood in for. Placeholders and operators are no errors. -/
def diagnostic? : StandIn → Option Diagnostic
  | syntaxError diagnostic => some diagnostic
  | unresolved diagnostic => some diagnostic
  | placeholder => none
  | operator _ => none

/-- The stand-in for a fault. -/
def ofFault (fault : Fault) : StandIn := syntaxError fault.diagnostic

end StandIn

/-- The stand-ins that the parameters of a function ask for. -/
def Param.listStandIns : List Param → List StandIn
  | [] => []
  | .name _ _ :: params => Param.listStandIns params
  | .fault f :: params => .ofFault f :: Param.listStandIns params

/-- The stand-ins that a node asks for itself. -/
def Node.standIns (bindings : Bindings) : Node → List StandIn
  | .tree (.identifier id _) =>
    match bindings.resolution? id with
    | some (.unresolved diagnostic) => [.unresolved diagnostic]
    | _ => []
  | .tree (.placeholder _ _) => [.placeholder]
  | .tree (.fault fault) => [.ofFault fault]
  | .tree (.function _ _ params _ _) => Param.listStandIns params
  | .tree (.binary _ _ operator _) =>
    if operator.kind = .doubleCaret then [.operator operator.value] else []
  | _ => []

mutual

/-- The nodes of a tree that do not lie inside an operand of a `^^`, each before those below it. -/
def Tree.exposed (tree : Tree) : List Node :=
  .tree tree :: match tree with
    | .identifier _ _ => []
    | .literal _ _ _ => []
    | .placeholder _ _ => []
    | .fault _ => []
    | .paren _ _ inner _ => inner.exposed
    | .letIn _ _ items _ body => Item.listExposed .ofBinding items ++ body.exposed
    | .function _ _ _ _ body => body.exposed
    | .record _ _ items _ => Item.listExposed .ofField items
    | .unary _ _ operand => operand.exposed
    | .binary _ left operator right =>
      if operator.kind = .doubleCaret then [] else left.exposed ++ right.exposed
    | .apply _ callee argument => callee.exposed ++ argument.exposed

/-- The nodes of the items of a list that do not lie inside an operand of a `^^`. -/
def Item.listExposed (toNode : Item → Node) : List Item → List Node
  | [] => []
  | .fault fault :: items => toNode (.fault fault) :: Item.listExposed toNode items
  | .definition id name equals value :: items =>
    toNode (.definition id name equals value) ::
      (value.exposed ++ Item.listExposed toNode items)

end

/-- The stand-ins that the nodes of a tree ask for. -/
def Tree.standIns (bindings : Bindings) (tree : Tree) : List StandIn :=
  tree.exposed.flatMap (Node.standIns bindings)

/-- The stand-ins that the nodes of a list of items ask for. -/
def Item.listStandIns (bindings : Bindings) (toNode : Item → Node) (items : List Item) :
    List StandIn :=
  (Item.listExposed toNode items).flatMap (Node.standIns bindings)

/-- The parameters that ask for stand-ins are faults. -/
theorem Param.list_stand_ins_eq (params : List Param) :
    Param.listStandIns params = (params.filterMap Param.fault?).map .ofFault := by
  induction params with
  | nil => rfl
  | cons param params ih =>
      cases param with
      | name id token => exact ih
      | fault f => exact congrArg _ ih

/-- The identifiers that ask for stand-ins have diagnostics. -/
theorem Node.stand_ins_identifier (bindings : Bindings) (id : NodeId) (token : Token) :
    (Node.tree (.identifier id token)).standIns bindings =
      (bindings.diagnostic? id).toList.map .unresolved := by
  rw [Node.standIns, Bindings.diagnostic?]
  cases bindings.resolution? id with
  | none => rfl
  | some resolution => cases resolution <;> rfl

/-! ## The errors that a script throws -/

namespace Script

mutual

/-- The messages of the errors that a script throws, in the order of its text. -/
def Expr.failures : Expr → List String
  | .number _ => []
  | .variable _ => []
  | .property _ _ => []
  | .failure message => [message]
  | .paren inner => inner.failures
  | .unary _ operand => operand.failures
  | .binary _ left right => left.failures ++ right.failures
  | .call callee argument => callee.failures ++ argument.failures
  | .function _ _ failures body => failures ++ body.failures
  | .record entries => Entry.listFailures entries
  | .faultyRecord failures entries => failures ++ Entry.listFailures entries
  | .scoped _ entries failures body => Entry.listFailures entries ++ (failures ++ body.failures)

/-- The messages of the errors that the definitions of a record throw. -/
def Entry.listFailures : List Entry → List String
  | [] => []
  | .mk _ value :: entries => value.failures ++ Entry.listFailures entries

end

end Script

namespace JavaScript

variable {τ : Type}

mutual

/-- The values that the statements in an expression throw, in the order of its text. -/
def Expr.thrown : Expr τ → List (Expr τ)
  | .number _ => []
  | .string _ => []
  | .variable _ _ => []
  | .member object _ => object.thrown
  | .unary _ operand => operand.thrown
  | .binary _ left right => left.thrown ++ right.thrown
  | .call callee arguments => callee.thrown ++ Expr.listThrown arguments
  | .construct constructor arguments => constructor.thrown ++ Expr.listThrown arguments
  | .function _ _ body => Statement.listThrown body
  | .array elements => Expr.listThrown elements

/-- The values that the statements in some expressions throw. -/
def Expr.listThrown : List (Expr τ) → List (Expr τ)
  | [] => []
  | expr :: exprs => expr.thrown ++ Expr.listThrown exprs

/-- The values that a statement throws. -/
def Statement.thrown : Statement τ → List (Expr τ)
  | .declares _ value => value.thrown
  | .throws value => value :: value.thrown
  | .returns value => value.thrown

/-- The values that some statements throw. -/
def Statement.listThrown : List (Statement τ) → List (Expr τ)
  | [] => []
  | statement :: statements => statement.thrown ++ Statement.listThrown statements

end

end JavaScript

namespace Script

open JavaScript (Statement)

/-- An error with a message. -/
def error (message : String) : JavaScript.Expr Unit :=
  .construct (.variable () "Error") [.string message]

/-- Statements that throw errors throw these errors. -/
theorem list_thrown_append (failures : List String) (rest : List (Statement Unit)) :
    Statement.listThrown (failures.map (thrown ()) ++ rest) =
      failures.map error ++ Statement.listThrown rest := by
  induction failures with
  | nil => rfl
  | cons message failures ih =>
      have hhead : (thrown () message).thrown = [error message] := rfl
      simp only [List.map_cons, List.cons_append, Statement.listThrown, hhead, ih, List.nil_append]

@[simp] theorem thrown_numeric (value : Binary64) :
    (numeric () value : JavaScript.Expr Unit).thrown = [] := by
  unfold numeric
  split
  · rfl
  · split <;> rfl

@[simp] theorem thrown_record_of (entries : List (JavaScript.Expr Unit)) :
    (recordOf () entries).thrown = JavaScript.Expr.listThrown entries := by
  simp [recordOf, library, JavaScript.Expr.thrown, JavaScript.Expr.listThrown]

@[simp] theorem thrown_called (body : List (Statement Unit)) :
    (called () body).thrown = Statement.listThrown body := by
  simp [called, JavaScript.Expr.thrown, JavaScript.Expr.listThrown]

@[simp] theorem thrown_function_of (curried : Bool) (params failures : List String)
    (body : JavaScript.Expr Unit) :
    (functionOf () curried () params failures body).thrown =
      failures.map error ++ body.thrown := by
  cases curried <;>
    simp [functionOf, library, JavaScript.Expr.thrown, JavaScript.Expr.listThrown,
      list_thrown_append, Statement.listThrown, Statement.thrown]

mutual

/-- The code of a script throws just its errors. -/
theorem Expr.thrown_code (expr : Expr) : expr.code.thrown = expr.failures.map error := by
  cases expr with
  | number text =>
      simp only [Expr.code, Expr.failures, List.map_nil]
      split
      · exact thrown_numeric _
      · rfl
  | «variable» name => rfl
  | property object name => rfl
  | failure message => rfl
  | paren inner => exact inner.thrown_code
  | unary operator operand => exact operand.thrown_code
  | binary operator left right =>
      simp only [Expr.code, Expr.failures, JavaScript.Expr.thrown, List.map_append,
        left.thrown_code, right.thrown_code]
  | call callee argument =>
      simp only [Expr.code, Expr.failures, JavaScript.Expr.thrown, JavaScript.Expr.listThrown,
        List.map_append, List.append_nil, callee.thrown_code, argument.thrown_code]
  | function curried params failures body =>
      simp only [Expr.code, Expr.failures, thrown_function_of, List.map_append, body.thrown_code]
  | record entries =>
      simp only [Expr.code, Expr.failures, thrown_record_of, Entry.thrown_code_list entries]
  | faultyRecord failures entries =>
      simp only [Expr.code, Expr.failures, faultyRecordOf, thrown_called, list_thrown_append,
        Statement.listThrown, Statement.thrown, thrown_record_of, Entry.thrown_code_list entries,
        List.map_append, List.append_nil]
  | «scoped» name entries failures body =>
      simp only [Expr.code, Expr.failures, scopedOf, thrown_called, list_thrown_append,
        Statement.listThrown, Statement.thrown, thrown_record_of, Entry.thrown_code_list entries,
        List.map_append, List.append_nil, body.thrown_code]

/-- The code of the definitions of a record throws just their errors. -/
theorem Entry.thrown_code_list (entries : List Entry) :
    JavaScript.Expr.listThrown (Entry.codeList entries) =
      (Entry.listFailures entries).map error := by
  cases entries with
  | nil => rfl
  | cons entry entries =>
      obtain ⟨name, value⟩ := entry
      simp only [Entry.codeList, Entry.listFailures, JavaScript.Expr.listThrown, Script.entry,
        JavaScript.Expr.thrown, Statement.listThrown, Statement.thrown, List.nil_append,
        List.append_nil, List.map_append, value.thrown_code, Entry.thrown_code_list entries]

end

end Script

/-! ## The errors of the script of a tree -/

open Script

/-- Messages are those of some stand-ins, in any order. -/
def StandIn.Match (failures : List String) (standIns : List StandIn) : Prop :=
  failures.Perm (standIns.map StandIn.message)

namespace StandIn.Match

/-- Messages and stand-ins may be put together. -/
theorem append {failures failures' : List String} {standIns standIns' : List StandIn}
    (h : Match failures standIns) (h' : Match failures' standIns') :
    Match (failures ++ failures') (standIns ++ standIns') := by
  unfold Match
  rw [List.map_append]
  exact List.Perm.append h h'

/-- The messages of faults are those of their stand-ins. -/
theorem faults (faults : List Fault) :
    Match (faults.map faultMessage) (faults.map StandIn.ofFault) := by
  unfold Match
  rw [List.map_map]
  exact .refl _

end StandIn.Match

/-- A node is resolved and formed as the generator expects it. -/
def Node.Sound (bindings : Bindings) (node : Node) : Prop :=
  (∃ tokens, node.Formed tokens) ∧ ∃ globals, node.Resolved bindings globals

/-- An operator between two operands that has no counterpart is `^^`. -/
theorem Script.binary_operator_none {kind : Kind} (h : kind ∈ Kind.operators) :
    binaryOperator? kind = none ↔ kind = .doubleCaret := by
  revert kind
  decide

/-- A sign has a counterpart. -/
theorem Script.unary_operator_some {kind : Kind} (h : kind ∈ Kind.signs) :
    unaryOperator? kind ≠ none := by
  revert kind
  decide

section Lower

variable {bindings : Bindings} {curry : Bool}

/-- The script of a resolved identifier fails if the identifier refers to nothing. -/
theorem Script.failures_lower_identifier {id : NodeId} {token : Token}
    (h : (Node.tree (.identifier id token)).Sound bindings) :
    StandIn.Match (lowerIdentifier bindings id token.value).failures
      ((bindings.diagnostic? id).toList.map .unresolved) := by
  obtain ⟨-, globals, hresolved⟩ := h
  obtain ⟨declaration, resolution, hfound, -⟩ := hresolved id token rfl
  unfold lowerIdentifier Bindings.diagnostic?
  rw [hfound]
  cases resolution with
  | unresolved diagnostic => exact .refl _
  | bound binding =>
      obtain ⟨name, kind, scope, node⟩ := binding
      cases kind <;> exact .refl _

mutual

/-- The script of a tree fails as its stand-ins say. -/
theorem Tree.lower_failures (tree : Tree) (h : tree.Every (Node.Sound bindings)) :
    (tree.lower bindings curry).Yields fun script =>
      StandIn.Match script.failures (tree.standIns bindings) := by
  cases tree with
  | identifier id token =>
      simp only [Tree.lower, Tree.standIns, Tree.exposed, List.flatMap_singleton,
        Node.stand_ins_identifier]
      exact .pure (failures_lower_identifier (Tree.every_identifier.1 h))
  | literal id token value =>
      simp only [Tree.lower]
      exact .pure (.refl _)
  | placeholder id token =>
      simp only [Tree.lower]
      exact .pure (.refl _)
  | fault f =>
      simp only [Tree.lower]
      exact .pure (.refl _)
  | paren id opener inner closer =>
      simp only [Tree.lower]
      exact inner.lower_failures (Tree.every_paren.1 h).2
  | letIn id letToken items inToken body =>
      obtain ⟨-, hitems, hbody⟩ := Tree.every_let_in.1 h
      simp only [Tree.lower, Tree.standIns, Tree.exposed, List.flatMap_cons, Node.standIns,
        List.nil_append, List.flatMap_append]
      refine (Item.lower_list_failures .ofBinding (fun _ _ _ _ => rfl) (fun _ => rfl) items
        hitems).bind fun entries hentries =>
        (body.lower_failures hbody).bind fun script hscript => .pure ?_
      rw [Expr.failures, ← List.append_assoc]
      exact hentries.append hscript
  | function id fnToken params arrow body =>
      have hbody := (Tree.every_function.1 h).2
      simp only [Tree.lower, Tree.standIns, Tree.exposed, List.flatMap_cons, Node.standIns,
        Param.list_stand_ins_eq]
      refine Naming.Yields.bind (P := fun _ => True) (fun _ => trivial) fun names _ =>
        (body.lower_failures hbody).bind fun script hscript => .pure ?_
      exact (StandIn.Match.faults _).append hscript
  | record id opener items closer =>
      have hitems := (Tree.every_record.1 h).2
      simp only [Tree.lower, Tree.standIns, Tree.exposed, List.flatMap_cons, Node.standIns,
        List.nil_append]
      refine (Item.lower_list_failures .ofField (fun _ _ _ _ => rfl) (fun _ => rfl) items
        hitems).bind fun entries hentries => ?_
      generalize (items.filterMap Item.fault?).map faultMessage = failures at hentries
      cases failures with
      | nil =>
          rw [List.append_nil] at hentries
          exact .pure hentries
      | cons message failures => exact .pure (List.perm_append_comm.trans hentries)
  | unary id operator operand =>
      obtain ⟨⟨⟨_, hformed⟩, -⟩, hoperand⟩ := Tree.every_unary.1 h
      simp only [Tree.lower]
      cases hsign : unaryOperator? operator.kind with
      | none => exact absurd hsign (unary_operator_some hformed)
      | some sign =>
          exact (operand.lower_failures hoperand).bind fun script hscript => .pure hscript
  | binary id left operator right =>
      obtain ⟨⟨⟨_, hformed⟩, -⟩, hleft, hright⟩ := Tree.every_binary.1 h
      simp only [Tree.lower, Tree.standIns, Tree.exposed, List.flatMap_cons, Node.standIns]
      cases hsign : binaryOperator? operator.kind with
      | none =>
          simp only [(binary_operator_none hformed).1 hsign, if_true]
          exact .pure (.refl _)
      | some sign =>
          have hne : operator.kind ≠ .doubleCaret := by
            intro heq
            rw [(binary_operator_none hformed).2 heq] at hsign
            cases hsign
          simp only [if_neg hne, List.nil_append, List.flatMap_append]
          exact (left.lower_failures hleft).bind fun script hscript =>
            (right.lower_failures hright).bind fun script' hscript' =>
              .pure (hscript.append hscript')
  | apply id callee argument =>
      obtain ⟨-, hcallee, hargument⟩ := Tree.every_apply.1 h
      simp only [Tree.lower, Tree.standIns, Tree.exposed, List.flatMap_cons, Node.standIns,
        List.nil_append, List.flatMap_append]
      refine (callee.lower_failures hcallee).bind fun script hscript =>
        (argument.lower_failures hargument).bind fun script' hscript' => .pure ?_
      -- parentheses around the function throw nothing
      have hparen : (if callee.isCallee then script else .paren script).failures =
          script.failures := by
        split <;> rfl
      rw [Expr.failures, hparen]
      exact hscript.append hscript'

/-- The scripts of the definitions among some items fail as the stand-ins of the items say, apart
from those of the faults among the items. -/
theorem Item.lower_list_failures (toNode : Item → Node)
    (hnode : ∀ id name equals value,
      (toNode (.definition id name equals value)).standIns bindings = [])
    (hfault : ∀ fault, toNode (.fault fault) = .tree (.fault fault)) (items : List Item)
    (h : ∀ item ∈ items, item.Every toNode (Node.Sound bindings)) :
    (Item.lowerList bindings curry items).Yields fun entries =>
      StandIn.Match (Entry.listFailures entries ++ (items.filterMap Item.fault?).map faultMessage)
        (Item.listStandIns bindings toNode items) := by
  cases items with
  | nil =>
      simp only [Item.lowerList]
      exact .pure (.refl _)
  | cons item items =>
      obtain ⟨hitem, hitems⟩ := List.forall_mem_cons.1 h
      have hrest := Item.lower_list_failures toNode hnode hfault items hitems
      cases item with
      | fault f =>
          simp only [Item.lowerList, Item.listStandIns, Item.listExposed, List.flatMap_cons, hfault,
            Node.standIns]
          intro n
          exact List.perm_middle.trans ((hrest n).cons _)
      | definition id name equals value =>
          simp only [Item.lowerList, Item.listStandIns, Item.listExposed, List.flatMap_cons, hnode,
            List.nil_append, List.flatMap_append]
          refine (value.lower_failures hitem.2).bind fun script hscript =>
            hrest.bind fun entries hentries => .pure ?_
          rw [Entry.listFailures, List.append_assoc]
          exact hscript.append hentries

end

/-! ## The diagnostics of stand-ins -/

/-- The diagnostics of stand-ins for errors are among the given ones. -/
def StandIn.Reported (diagnostics : List Diagnostic) (standIns : List StandIn) : Prop :=
  ∀ standIn ∈ standIns, ∀ diagnostic ∈ standIn.diagnostic?, diagnostic ∈ diagnostics

namespace StandIn.Reported

variable {diagnostics diagnostics' : List Diagnostic} {standIns standIns' : List StandIn}

/-- Stand-ins and their diagnostics may be put together. -/
theorem append (h : Reported diagnostics standIns) (h' : Reported diagnostics' standIns') :
    Reported (diagnostics ++ diagnostics') (standIns ++ standIns') := by
  intro standIn hstandIn diagnostic hdiagnostic
  rcases List.mem_append.1 hstandIn with hstandIn | hstandIn
  · exact List.mem_append_left _ (h standIn hstandIn diagnostic hdiagnostic)
  · exact List.mem_append_right _ (h' standIn hstandIn diagnostic hdiagnostic)

/-- No stand-ins need no diagnostics. -/
theorem nil (diagnostics : List Diagnostic) : Reported diagnostics [] :=
  fun _ h => absurd h List.not_mem_nil

/-- The stand-ins for faults have the diagnostics of the faults. -/
theorem faults (faults : List Fault) :
    Reported (faults.flatMap Fault.diagnostics) (faults.map StandIn.ofFault) := by
  intro standIn hstandIn diagnostic hdiagnostic
  obtain ⟨fault, hfault, rfl⟩ := List.mem_map.1 hstandIn
  cases hdiagnostic
  exact List.mem_flatMap.2 ⟨fault, hfault, List.mem_cons_self ..⟩

end StandIn.Reported

mutual

/-- The errors that the stand-ins of a tree stand for are among its diagnostics. -/
theorem Tree.stand_ins_reported (tree : Tree) :
    StandIn.Reported (tree.diagnostics bindings) (tree.standIns bindings) := by
  cases tree with
  | identifier id token =>
      simp only [Tree.standIns, Tree.exposed, List.flatMap_singleton, Node.stand_ins_identifier]
      intro standIn hstandIn diagnostic hdiagnostic
      obtain ⟨own, hown, rfl⟩ := List.mem_map.1 hstandIn
      cases hdiagnostic
      exact hown
  | literal => exact .nil _
  | placeholder =>
      intro standIn hstandIn diagnostic hdiagnostic
      rw [List.mem_singleton.1 hstandIn] at hdiagnostic
      cases hdiagnostic
  | fault f =>
      have hfault := StandIn.Reported.faults [f]
      rwa [List.flatMap_singleton] at hfault
  | paren id opener inner closer => exact inner.stand_ins_reported
  | letIn id letToken items inToken body =>
      simp only [Tree.diagnostics, Tree.standIns, Tree.exposed, List.flatMap_cons, Node.standIns,
        List.nil_append, List.flatMap_append]
      exact (Item.list_stand_ins_reported .ofBinding (fun _ _ _ _ => rfl) (fun _ => rfl)
        items).append body.stand_ins_reported
  | function id fnToken params arrow body =>
      simp only [Tree.diagnostics, Tree.standIns, Tree.exposed, List.flatMap_cons, Node.standIns,
        Param.list_stand_ins_eq]
      exact (StandIn.Reported.faults _).append body.stand_ins_reported
  | record id opener items closer =>
      exact Item.list_stand_ins_reported .ofField (fun _ _ _ _ => rfl) (fun _ => rfl) items
  | unary id operator operand => exact operand.stand_ins_reported
  | binary id left operator right =>
      simp only [Tree.diagnostics, Tree.standIns, Tree.exposed, List.flatMap_cons, Node.standIns]
      by_cases hoperator : operator.kind = .doubleCaret
      · simp only [if_pos hoperator]
        intro standIn hstandIn diagnostic hdiagnostic
        rw [List.mem_singleton.1 hstandIn] at hdiagnostic
        cases hdiagnostic
      · simp only [if_neg hoperator, List.nil_append, List.flatMap_append]
        exact left.stand_ins_reported.append right.stand_ins_reported
  | apply id callee argument =>
      simp only [Tree.diagnostics, Tree.standIns, Tree.exposed, List.flatMap_cons, Node.standIns,
        List.nil_append, List.flatMap_append]
      exact callee.stand_ins_reported.append argument.stand_ins_reported

/-- The errors that the stand-ins of some items stand for are among their diagnostics. -/
theorem Item.list_stand_ins_reported (toNode : Item → Node)
    (hnode : ∀ id name equals value,
      (toNode (.definition id name equals value)).standIns bindings = [])
    (hfault : ∀ fault, toNode (.fault fault) = .tree (.fault fault)) (items : List Item) :
    StandIn.Reported (Item.listDiagnostics bindings items)
      (Item.listStandIns bindings toNode items) := by
  cases items with
  | nil => exact .nil _
  | cons item items =>
      have hrest := Item.list_stand_ins_reported toNode hnode hfault items
      cases item with
      | fault f =>
          have hfirst := StandIn.Reported.faults [f]
          rw [List.flatMap_singleton] at hfirst
          simp only [Item.listDiagnostics, Item.diagnostics, Item.listStandIns, Item.listExposed,
            List.flatMap_cons, hfault, Node.standIns]
          exact hfirst.append hrest
      | definition id name equals value =>
          simp only [Item.listDiagnostics, Item.diagnostics, Item.listStandIns, Item.listExposed,
            List.flatMap_cons, hnode, List.nil_append, List.flatMap_append]
          exact value.stand_ins_reported.append hrest

end

end Lower

/-! ## Messages -/

/-- A text that starts in another way is another text. -/
theorem Text.append_ne {first rest text : String} (h : ¬ first.toList <+: text.toList) :
    first ++ rest ≠ text := by
  rintro rfl
  rw [String.toList_append] at h
  exact h (List.prefix_append ..)

/-- No cause has the message for a node that has no code of its own. -/
theorem Cause.message_ne_unsupported (cause : Cause) : cause.message ≠ "Unsupported node" := by
  cases cause with
  | unrecognisedSymbol => decide
  | unrecognisedDot => decide
  | unterminatedQuotedIdentifier => decide
  | emptyQuotedIdentifier => decide
  | notImplemented => decide
  | unexpectedToken expected received =>
      show "Parse error: expected " ++ expected ++ " but got " ++ received ≠ _
      rw [String.append_assoc, String.append_assoc]
      exact Text.append_ne (by decide)
  | nestingTooDeep limit =>
      show "Expression is nested more than " ++ limit.repr ++ " levels deep" ≠ _
      rw [String.append_assoc]
      exact Text.append_ne (by decide)
  | cannotParseExpression token =>
      show "Cannot parse '" ++ token ++ "' as an expression" ≠ _
      rw [String.append_assoc]
      exact Text.append_ne (by decide)
  | numberParseError token => exact Text.append_ne (by decide)
  | unresolvedIdentifier name =>
      show "Cannot find the definition of [" ++ name ++ "]." ≠ _
      rw [String.append_assoc]
      exact Text.append_ne (by decide)
  | uncompilableOperator operator => exact Text.append_ne (by decide)

/-- No stand-in has the message for a node that has no code of its own. -/
theorem StandIn.message_ne_unsupported (standIn : StandIn) :
    standIn.message ≠ "Unsupported node" := by
  cases standIn with
  | syntaxError diagnostic => exact Text.append_ne (by decide)
  | unresolved diagnostic => exact diagnostic.cause.message_ne_unsupported
  | placeholder => decide
  | operator text => exact Text.append_ne (by decide)

/-! ## Parsed trees -/

/-- The script of a parsed tree fails as its stand-ins say. -/
theorem Tree.lower_parse_failures (tokens : Array Token) (globals : List String) (curry : Bool) :
    let tree := Tree.parse tokens
    let bindings := tree.resolve globals
    StandIn.Match (tree.lower bindings curry 0).1.failures (tree.standIns bindings) := by
  intro tree bindings
  have hformed := (Tree.parse_derives tokens).formed (List.Subset.refl _)
  exact tree.lower_failures (fun entry hentry =>
    ⟨⟨_, hformed entry hentry⟩, globals, Tree.resolved_parse tokens globals entry hentry⟩) 0

/-- The text of a source is read as the code of its script. -/
theorem Tree.read_generate (source : String) (options : Options) :
    let tree := Tree.parse (Token.read source options.fileName)
    let bindings := tree.resolve options.globals
    JavaScript.read? (tree.generate bindings options) =
      some (tree.lower bindings options.curry 0).1.code := by
  intro tree bindings
  obtain ⟨tokens, hscans, hderives⟩ := tree.lower_prints bindings options.curry
    (Tree.unsigned_parse source options.fileName) 0
  have htext := hscans options.indentWidth 0 true
  rw [← tree.to_list_generate bindings options] at htext
  exact (JavaScript.read_of_scans htext hderives).2

/-- Generated code throws errors in the place of what cannot be compiled, and nowhere else. The text
of a tree is that of its script, and that of a source is read as the code of the script, in which
the statements that throw are those of the script's failures. Their messages are, in some order,
those of the stand-ins that the nodes outside the operands of `^^` ask for. Each stand-in for an
error of the program has its diagnostic among those of the tree, so without diagnostics there are
only those for placeholders and operators. -/
theorem Tree.stand_ins_agree (tokens : Array Token) (options : Options) :
    let tree := Tree.parse tokens
    let bindings := tree.resolve options.globals
    let script := (tree.lower bindings options.curry 0).1
    (tree.generate bindings options).toList = script.doc.chars options.indentWidth 0 true ∧
    (∀ source, tokens = Token.read source options.fileName →
      JavaScript.read? (tree.generate bindings options) = some script.code) ∧
    script.code.thrown = script.failures.map Script.error ∧
    script.failures.Perm ((tree.standIns bindings).map StandIn.message) ∧
    "Unsupported node" ∉ script.failures ∧
    (∀ standIn ∈ tree.standIns bindings, ∀ diagnostic ∈ standIn.diagnostic?,
      diagnostic ∈ tree.diagnostics bindings) ∧
    (tree.diagnostics bindings = [] → ∀ standIn ∈ tree.standIns bindings,
      standIn = .placeholder ∨ ∃ text, standIn = .operator text) := by
  intro tree bindings script
  have hmatch : StandIn.Match script.failures (tree.standIns bindings) :=
    Tree.lower_parse_failures tokens options.globals options.curry
  have hreported : StandIn.Reported (tree.diagnostics bindings) (tree.standIns bindings) :=
    tree.stand_ins_reported
  refine ⟨tree.to_list_generate bindings options, ?_, script.thrown_code, hmatch, ?_, hreported, ?_⟩
  · rintro source rfl
    exact Tree.read_generate source options
  · intro hmem
    obtain ⟨standIn, -, hmessage⟩ := List.mem_map.1 (hmatch.mem_iff.1 hmem)
    exact standIn.message_ne_unsupported hmessage
  · intro hnone standIn hstandIn
    rw [hnone] at hreported
    cases standIn with
    | syntaxError diagnostic => exact absurd (hreported _ hstandIn _ rfl) List.not_mem_nil
    | unresolved diagnostic => exact absurd (hreported _ hstandIn _ rfl) List.not_mem_nil
    | placeholder => exact .inl rfl
    | operator text => exact .inr ⟨text, rfl⟩

end LetScript
