import LetScript.Proofs.JavaScript.Syntax
import LetScript.Proofs.Number.RoundTrip
import LetScript.Script.Lower

/-!
# Programs as JavaScript expressions

`Tree.image` says which JavaScript expression a tree stands for, one form of the language at a time:
parentheses disappear, operators and applications keep their operands, a function becomes a
function, and a let becomes a function that is called at once and holds its definitions in a
variable. What cannot be compiled throws an error. Variables and functions are tagged with the nodes
they were made for.

`Script.Expr.code` gives the JavaScript expression that a script is the description of. The script
of a tree describes the image of the tree (`Tree.image_agrees`).
-/

namespace LetScript

open JavaScript

/-! ## Forms of generated code -/

namespace Script

/-- What a part of the generated code was made for. -/
inductive Origin where
  /-- The function around the whole program. -/
  | program
  | node (id : NodeId)
  /-- A part that belongs to no node of the program. -/
  | support

section Forms

variable {τ : Type} (support : τ)

/-- A statement that throws an error with a message. -/
def thrown (message : String) : Statement τ :=
  .throws (.construct (.variable support "Error") [.string message])

/-- A function without parameters that is called at once. -/
def called (tag : τ) (body : List (Statement τ)) : JavaScript.Expr τ :=
  .call (.function tag [] body) []

/-- An expression that throws an error with a message. -/
def failing (message : String) : JavaScript.Expr τ := called support [thrown support message]

/-- A number. Infinity and the undefined number are variables. -/
def numeric (value : Binary64) : JavaScript.Expr τ :=
  if value.isInfinite then .variable support "Infinity"
  else if Binary64.infinity < value.magnitude then .variable support "NaN"
  else .number value

/-- A natural number, rounded if it is too great. -/
def natural (n : Nat) : Binary64 := ⟨false, Binary64.ofDecimal ⟨n, 0⟩⟩

/-- A function of the support library. -/
def library (name : String) : JavaScript.Expr τ := .member (.variable support "$rt") name

/-- A definition of a record: its name and a function that gives its value. -/
def entry (name : String) (value : JavaScript.Expr τ) : JavaScript.Expr τ :=
  .array [.string name, .function support [] [.returns value]]

/-- A record of definitions. -/
def recordOf (entries : List (JavaScript.Expr τ)) : JavaScript.Expr τ :=
  .call (library support "record") [.array entries]

/-- A function that first throws errors and then gives its body. A curried one may be called with
fewer arguments than it has parameters. -/
def functionOf (curried : Bool) (tag : τ) (params failures : List String)
    (body : JavaScript.Expr τ) : JavaScript.Expr τ :=
  let function := .function tag params (failures.map (thrown support) ++ [.returns body])
  if curried then
    .call (library support "curry") [.number (natural params.length), function]
  else function

/-- A record of definitions after some errors. -/
def faultyRecordOf (failures : List String) (entries : List (JavaScript.Expr τ)) :
    JavaScript.Expr τ :=
  called support (failures.map (thrown support) ++ [.returns (recordOf support entries)])

/-- A body in which a variable holds a record of definitions, after some errors. -/
def scopedOf (tag : τ) (name : String) (entries : List (JavaScript.Expr τ)) (failures : List String)
    (body : JavaScript.Expr τ) : JavaScript.Expr τ :=
  called tag (.declares name (recordOf support entries) ::
    (failures.map (thrown support) ++ [.returns body]))

end Forms

/-! ## Scripts -/

mutual

/-- The JavaScript expression that a script describes. -/
def Expr.code : Expr → JavaScript.Expr Unit
  | .number text =>
    match Binary64.read? text with
    | some value => numeric () value
    | none => .variable () text
  | .variable name => .variable () name
  | .property object name => .member (.variable () object) name
  | .failure message => failing () message
  | .paren inner => inner.code
  | .unary operator operand => .unary operator operand.code
  | .binary operator left right => .binary operator left.code right.code
  | .call callee argument => .call callee.code [argument.code]
  | .function curried params failures body =>
    functionOf () curried () params failures body.code
  | .record entries => recordOf () (Entry.codeList entries)
  | .faultyRecord failures entries => faultyRecordOf () failures (Entry.codeList entries)
  | .scoped name entries failures body =>
    scopedOf () () name (Entry.codeList entries) failures body.code

/-- The JavaScript expressions of the definitions of a record. -/
def Entry.codeList : List Entry → List (JavaScript.Expr Unit)
  | [] => []
  | .mk name value :: entries => entry () name value.code :: Entry.codeList entries

end

end Script

/-! ## Trees -/

open Script

variable (bindings : Bindings) (curry : Bool)

/-- The message of the error that a fault throws. -/
def Fault.failure (fault : Fault) : String := "Syntax error: " ++ fault.diagnostic.message

/-- The messages of the faults among the items of a list. -/
def Item.failures : List Item → List String
  | [] => []
  | .definition _ _ _ _ :: items => Item.failures items
  | .fault f :: items => f.failure :: Item.failures items

/-- The messages of the faults among the parameters of a function. -/
def Param.failures : List Param → List String
  | [] => []
  | .name _ _ :: params => Param.failures params
  | .fault f :: params => f.failure :: Param.failures params

/-- Whether one of some parameters has a name. -/
def Param.declares (name : String) : List Param → Bool
  | [] => false
  | .name _ token :: params => token.value == name || Param.declares name params
  | .fault _ :: params => Param.declares name params

/-- The variables of the parameters of a function. One that a later parameter of the same name hides
is numbered. -/
def Param.variables : List Param → Naming (List String)
  | [] => return []
  | .name _ token :: params => do
    let chosen ← if Param.declares token.value params
      then (fun n => ("$unused" ++ n.repr, n + 1) : Naming String)
      else pure (mangle token.value)
    return chosen :: (← Param.variables params)
  | .fault _ :: params => Param.variables params

/-- The JavaScript expression of an identifier. -/
def identifierImage (id : NodeId) (name : String) : JavaScript.Expr Origin :=
  match bindings.resolution? id with
  | some (.bound binding) =>
    match binding.kind with
    | .param => .variable (.node id) (mangle name)
    | .definition => .member (.variable (.node id) ("$s" ++ binding.scope.repr)) name
    | .global => .member (.variable (.node id) "$globals") name
  | some (.unresolved diagnostic) => failing .support diagnostic.message
  | none => failing .support ("Cannot find the definition of [" ++ name ++ "].")

/-- The variable of a let, which is that of its scope. -/
def letVariable (id : NodeId) : String :=
  match bindings.scopeOf? id with
  | some scope => "$s" ++ scope.repr
  | none => "$l" ++ id.repr

mutual

/-- The JavaScript expression of a tree. Only the names of hidden parameters are counted through the
whole tree. -/
def Tree.image : Tree → Naming (JavaScript.Expr Origin)
  | .identifier id token => return identifierImage bindings id token.value
  | .literal _ _ value => return numeric .support value
  | .placeholder _ _ => return failing .support "Not Implemented"
  | .fault fault => return failing .support fault.failure
  | .paren _ _ inner _ => inner.image
  | .letIn id _ items _ body => do
    let entries ← Item.imageList items
    let failures := Item.failures items
    return scopedOf .support (.node id) (letVariable bindings id) entries failures (← body.image)
  | .function id _ params _ body => do
    let names ← Param.variables params
    let failures := Param.failures params
    return functionOf .support curry (.node id) names failures (← body.image)
  | .record _ _ items _ => do
    let entries ← Item.imageList items
    match Item.failures items with
    | [] => return recordOf .support entries
    | failures => return faultyRecordOf .support failures entries
  | .unary _ operator operand =>
    match operator.kind with
    | .plus => return .unary .plus (← operand.image)
    | .dash => return .unary .minus (← operand.image)
    | _ => return failing .support ("Uncompilable operator: " ++ operator.value)
  | .binary _ left operator right =>
    match operator.kind with
    | .plus => return .binary .plus (← left.image) (← right.image)
    | .dash => return .binary .minus (← left.image) (← right.image)
    | .star => return .binary .times (← left.image) (← right.image)
    | .slash => return .binary .divide (← left.image) (← right.image)
    | _ => return failing .support ("Uncompilable operator: " ++ operator.value)
  | .apply _ callee argument => do
    let function ← callee.image
    return .call function [← argument.image]

/-- The JavaScript expressions of the definitions among the items of a list. -/
def Item.imageList : List Item → Naming (List (JavaScript.Expr Origin))
  | [] => return []
  | .fault _ :: items => Item.imageList items
  | .definition _ name _ value :: items => do
    let value ← value.image
    return entry .support name.value value :: (← Item.imageList items)

end

/-! ## The script of a tree describes its image -/

namespace Script

variable {α β γ δ : Type}

/-- Two computations that give out the same names have results in a relation. -/
def Naming.Agree (R : α → β → Prop) (p : Naming α) (q : Naming β) : Prop :=
  ∀ n, R (p n).1 (q n).1 ∧ (p n).2 = (q n).2

namespace Naming.Agree

/-- Results without a name. -/
theorem pure {R : α → β → Prop} {a : α} {b : β} (h : R a b) :
    Agree R (Pure.pure a) (Pure.pure b) :=
  fun _ => ⟨h, rfl⟩

/-- Computations after others. -/
theorem bind {R : α → β → Prop} {S : γ → δ → Prop} {p : Naming α} {q : Naming β}
    {f : α → Naming γ} {g : β → Naming δ} (h : Agree R p q)
    (hf : ∀ a b, R a b → Agree S (f a) (g b)) : Agree S (p >>= f) (q >>= g) := by
  intro n
  obtain ⟨hresult, hnext⟩ := h n
  have hrest := hf _ _ hresult (p n).2
  show S (f (p n).1 (p n).2).1 (g (q n).1 (q n).2).1 ∧
    (f (p n).1 (p n).2).2 = (g (q n).1 (q n).2).2
  rw [← hnext]
  exact hrest

/-- The same computation twice. -/
theorem refl (p : Naming α) : Agree (· = ·) p p := fun _ => ⟨rfl, rfl⟩

end Naming.Agree

section Erase

variable {τ : Type} (support tag : τ)

@[simp] theorem erase_thrown (message : String) :
    (thrown support message).erase = thrown () message := rfl

/-- Statements that throw errors, without tags. -/
theorem erase_list_thrown (failures : List String) (rest : List (Statement τ)) :
    Statement.eraseList (failures.map (thrown support) ++ rest) =
      failures.map (thrown ()) ++ Statement.eraseList rest := by
  induction failures with
  | nil => rfl
  | cons message failures ih =>
      simp only [List.map_cons, List.cons_append, Statement.eraseList, erase_thrown, ih]

@[simp] theorem erase_failing (message : String) :
    (failing support message).erase = failing () message := rfl

@[simp] theorem erase_numeric (value : Binary64) :
    (numeric support value).erase = numeric () value := by
  unfold numeric
  split
  · rfl
  · split <;> rfl

@[simp] theorem erase_entry (name : String) (value : JavaScript.Expr τ) :
    (entry support name value).erase = entry () name value.erase := rfl

@[simp] theorem erase_record_of (entries : List (JavaScript.Expr τ)) :
    (recordOf support entries).erase = recordOf () (JavaScript.Expr.eraseList entries) := rfl

@[simp] theorem erase_function_of (curried : Bool) (params failures : List String)
    (body : JavaScript.Expr τ) :
    (functionOf support curried tag params failures body).erase =
      functionOf () curried () params failures body.erase := by
  have hbody := erase_list_thrown support failures [.returns body]
  cases curried <;>
    simp only [functionOf, library, Bool.false_eq_true, if_true, if_false, JavaScript.Expr.erase,
      JavaScript.Expr.eraseList, hbody, Statement.eraseList, Statement.erase]

@[simp] theorem erase_faulty_record_of (failures : List String)
    (entries : List (JavaScript.Expr τ)) :
    (faultyRecordOf support failures entries).erase =
      faultyRecordOf () failures (JavaScript.Expr.eraseList entries) := by
  simp only [faultyRecordOf, called, JavaScript.Expr.erase, JavaScript.Expr.eraseList,
    erase_list_thrown, Statement.eraseList, Statement.erase, erase_record_of]

@[simp] theorem erase_scoped_of (name : String) (entries : List (JavaScript.Expr τ))
    (failures : List String) (body : JavaScript.Expr τ) :
    (scopedOf support tag name entries failures body).erase =
      scopedOf () () name (JavaScript.Expr.eraseList entries) failures body.erase := by
  simp only [scopedOf, called, JavaScript.Expr.erase, JavaScript.Expr.eraseList, erase_list_thrown,
    Statement.eraseList, Statement.erase, erase_record_of]

end Erase

/-- The text of a number stands for the number. -/
theorem code_number (value : Binary64) :
    (Expr.number (numberText value)).code = numeric () value := by
  unfold numberText
  by_cases hinfinite : value.isInfinite
  · have hread : Binary64.read? "Infinity" = some ⟨false, Binary64.infinity⟩ := by decide +kernel
    rw [if_pos hinfinite]
    simp only [Expr.code, hread, numeric, hinfinite, if_true]
    rfl
  · rw [if_neg hinfinite]
    by_cases hundefined : Binary64.infinity < value.magnitude
    · have htext : value.toText = "NaN" := by rw [Binary64.toText, if_pos hundefined]
      have hread : Binary64.read? "NaN" = some ⟨false, Binary64.undefined⟩ := by decide +kernel
      simp only [Expr.code, htext, hread, numeric, hinfinite, hundefined, if_true]
      rfl
    · have hfinite : value.magnitude < Binary64.infinity := by
        have hne : value.magnitude ≠ Binary64.infinity := by
          simpa [Binary64.isInfinite] using hinfinite
        omega
      simp only [Expr.code, Binary64.read_to_text hfinite]

end Script

/-- The items that fail are those that are faults. -/
theorem Item.failures_eq (items : List Item) :
    Item.failures items = (items.filterMap Item.fault?).map faultMessage := by
  induction items with
  | nil => rfl
  | cons item items ih =>
      cases item with
      | definition id name equals value => exact ih
      | fault f => exact congrArg _ ih

/-- The parameters that fail are those that are faults. -/
theorem Param.failures_eq (params : List Param) :
    Param.failures params = (params.filterMap Param.fault?).map faultMessage := by
  induction params with
  | nil => rfl
  | cons param params ih =>
      cases param with
      | name id token => exact ih
      | fault f => exact congrArg _ ih

/-- The names that parameters have are those that they declare. -/
theorem Param.declares_eq (name : String) (params : List Param) :
    Param.declares name params = ((params.filterMap Param.declared?).map (·.2)).contains name := by
  induction params with
  | nil => rfl
  | cons param params ih =>
      cases param with
      | name id token =>
          rw [Param.declares, ih, Bool.beq_comm]
          rfl
      | fault f => exact ih

/-- The variables of parameters are the names that are chosen for them. -/
theorem Param.variables_eq (params : List Param) :
    Param.variables params = paramNames ((params.filterMap Param.declared?).map (·.2)) := by
  induction params with
  | nil => rfl
  | cons param params ih =>
      cases param with
      | name id token =>
          rw [Param.variables, Param.declares_eq, ih]
          rfl
      | fault f => exact ih

/-- The variable of a let is the one that is chosen for it. -/
theorem let_variable_eq (id : NodeId) : letVariable bindings id = recordVariable bindings id := rfl

/-- The script of an identifier describes its image. -/
theorem erase_identifier_image (id : NodeId) (name : String) :
    (identifierImage bindings id name).erase = (lowerIdentifier bindings id name).code := by
  unfold identifierImage lowerIdentifier
  cases bindings.resolution? id with
  | none => rfl
  | some resolution =>
      cases resolution with
      | unresolved diagnostic => rfl
      | bound binding => obtain ⟨name, kind, scope, node⟩ := binding; cases kind <;> rfl

mutual

/-- The script of a tree describes its image. -/
theorem Tree.image_agrees (tree : Tree) :
    Naming.Agree (fun image script => image.erase = script.code) (tree.image bindings curry)
      (tree.lower bindings curry) := by
  cases tree with
  | identifier id token =>
      simp only [Tree.image, Tree.lower]
      exact .pure (erase_identifier_image bindings id token.value)
  | literal id token value =>
      simp only [Tree.image, Tree.lower]
      exact .pure ((erase_numeric ..).trans (code_number value).symm)
  | placeholder id token =>
      simp only [Tree.image, Tree.lower]
      exact .pure (erase_failing ..)
  | fault f =>
      simp only [Tree.image, Tree.lower]
      exact .pure (erase_failing ..)
  | paren id opener inner closer =>
      simp only [Tree.image, Tree.lower]
      exact inner.image_agrees
  | letIn id letToken items inToken body =>
      simp only [Tree.image, Tree.lower]
      refine (Item.image_list_agrees items).bind fun entries scripts hentries =>
        body.image_agrees.bind fun image script hbody => .pure ?_
      rw [erase_scoped_of, hentries, hbody, Item.failures_eq, let_variable_eq]
      rfl
  | function id fnToken params arrow body =>
      simp only [Tree.image, Tree.lower, Param.variables_eq, Param.failures_eq]
      refine (Naming.Agree.refl _).bind fun names names' hnames =>
        body.image_agrees.bind fun image script hbody => .pure ?_
      rw [erase_function_of, hnames, hbody]
      rfl
  | record id opener items closer =>
      simp only [Tree.image, Tree.lower, Item.failures_eq]
      refine (Item.image_list_agrees items).bind fun entries scripts hentries => ?_
      cases (items.filterMap Item.fault?).map faultMessage with
      | nil =>
          refine .pure ?_
          rw [erase_record_of, hentries]
          rfl
      | cons message failures =>
          refine .pure ?_
          rw [erase_faulty_record_of, hentries]
          rfl
  | unary id operator operand =>
      have hsigned (sign : Operator) :
          Naming.Agree (fun image script => image.erase = script.code)
            (do return JavaScript.Expr.unary sign (← operand.image bindings curry))
            (do return Expr.unary sign (← operand.lower bindings curry)) := by
        refine operand.image_agrees.bind fun image script hoperand => .pure ?_
        rw [JavaScript.Expr.erase, hoperand]
        rfl
      simp only [Tree.image, Tree.lower, unaryOperator?]
      cases operator.kind with
      | plus => exact hsigned .plus
      | dash => exact hsigned .minus
      | _ => exact .pure (erase_failing ..)
  | binary id left operator right =>
      have hsigned (sign : Operator) :
          Naming.Agree (fun image script => image.erase = script.code)
            (do
              let image ← left.image bindings curry
              return JavaScript.Expr.binary sign image (← right.image bindings curry))
            (do
              let script ← left.lower bindings curry
              return Expr.binary sign script (← right.lower bindings curry)) := by
        refine left.image_agrees.bind fun image script hleft =>
          right.image_agrees.bind fun image' script' hright => .pure ?_
        rw [JavaScript.Expr.erase, hleft, hright]
        rfl
      simp only [Tree.image, Tree.lower, binaryOperator?]
      cases operator.kind with
      | plus => exact hsigned .plus
      | dash => exact hsigned .minus
      | star => exact hsigned .times
      | slash => exact hsigned .divide
      | _ => exact .pure (erase_failing ..)
  | apply id callee argument =>
      simp only [Tree.image, Tree.lower]
      refine callee.image_agrees.bind fun image script hcallee =>
        argument.image_agrees.bind fun image' script' hargument => .pure ?_
      -- parentheses around the function leave no trace
      have hparen : (if callee.isCallee then script else .paren script).code = script.code := by
        split <;> rfl
      simp only [JavaScript.Expr.erase, JavaScript.Expr.eraseList, hcallee, hargument, Expr.code,
        hparen]

/-- The scripts of definitions describe their images. -/
theorem Item.image_list_agrees (items : List Item) :
    Naming.Agree (fun images scripts => JavaScript.Expr.eraseList images = Entry.codeList scripts)
      (Item.imageList bindings curry items) (Item.lowerList bindings curry items) := by
  cases items with
  | nil =>
      simp only [Item.imageList, Item.lowerList]
      exact .pure rfl
  | cons item items =>
      cases item with
      | definition id name equals value =>
          simp only [Item.imageList, Item.lowerList]
          refine value.image_agrees.bind fun image script hvalue =>
            (Item.image_list_agrees items).bind fun images scripts hitems => .pure ?_
          simp only [JavaScript.Expr.eraseList, erase_entry, hvalue, hitems, Entry.codeList]
      | fault f =>
          simp only [Item.imageList, Item.lowerList]
          exact Item.image_list_agrees items

end

end LetScript
