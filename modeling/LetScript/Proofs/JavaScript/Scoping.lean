import LetScript.Proofs.JavaScript.Syntax

/-!
# Scopes of JavaScript

A name refers to the parameter or variable of this name in the innermost function around it that has
one (`resolve`). `Expr.occurrences` lists the names of an expression with the functions around each.
An expression is sound for a property of its names if they all have it and the parameters of each of
its functions are distinct (`Expr.Sound`).
-/

namespace LetScript.JavaScript

open Script (Operator)

variable {τ : Type}

/-! ## Looking up names -/

/-- A function around a point of a program: its parameters and the variables that its body
declares. -/
structure Frame (τ : Type) where
  tag : τ
  params : List String
  vars : List String

/-- What a name refers to: a parameter of a function, by its index, or a variable that the body of a
function declares. -/
inductive Referent (τ : Type) where
  | param (function : τ) (index : Nat)
  | var (function : τ)

/-- What a name refers to in a function that has a parameter or variable of this name. -/
def Frame.find? (frame : Frame τ) (name : String) : Option (Referent τ) :=
  if name ∈ frame.vars then some (.var frame.tag)
  else (frame.params.idxOf? name).map (.param frame.tag)

/-- What a name refers to inside some functions, the innermost first. -/
def resolve (name : String) (frames : List (Frame τ)) : Option (Referent τ) :=
  frames.findSome? (·.find? name)

variable {name : String} {frame : Frame τ} {frames : List (Frame τ)}

/-- A function that has the name decides what it refers to. -/
theorem resolve_of_find {referent : Referent τ} (h : frame.find? name = some referent) :
    resolve name (frame :: frames) = some referent := by
  simp only [resolve, List.findSome?_cons, h]

/-- A function without the name is passed over. -/
theorem resolve_of_not_find (h : frame.find? name = none) :
    resolve name (frame :: frames) = resolve name frames := by
  simp only [resolve, List.findSome?_cons, h]

/-- A function whose parameters and variables are others has no parameter or variable of a name. -/
theorem find_eq_none (hparams : name ∉ frame.params) (hvars : name ∉ frame.vars) :
    frame.find? name = none := by
  rw [Frame.find?, if_neg hvars, List.idxOf?_eq_none_iff.2 hparams, Option.map_none]

/-! ## Names of an expression -/

/-- The variable that a statement declares. -/
def Statement.declared? : Statement τ → Option String
  | .declares name _ => some name
  | .throws _ => none
  | .returns _ => none

/-- A function as it is seen from its body. -/
def Frame.ofFunction (tag : τ) (params : List String) (body : List (Statement τ)) : Frame τ :=
  ⟨tag, params, body.filterMap Statement.declared?⟩

/-- A name in an expression, with the functions around it. -/
structure Occurrence (τ : Type) where
  tag : τ
  name : String
  frames : List (Frame τ)

mutual

/-- The names in an expression that stands inside some functions. -/
def Expr.occurrences (frames : List (Frame τ)) : Expr τ → List (Occurrence τ)
  | .number _ => []
  | .string _ => []
  | .variable tag name => [⟨tag, name, frames⟩]
  | .member object _ => object.occurrences frames
  | .unary _ operand => operand.occurrences frames
  | .binary _ left right => left.occurrences frames ++ right.occurrences frames
  | .call callee arguments => callee.occurrences frames ++ Expr.listOccurrences frames arguments
  | .construct constructor arguments =>
    constructor.occurrences frames ++ Expr.listOccurrences frames arguments
  | .function tag params body =>
    Statement.listOccurrences (.ofFunction tag params body :: frames) body
  | .array elements => Expr.listOccurrences frames elements

/-- The names in a list of expressions. -/
def Expr.listOccurrences (frames : List (Frame τ)) : List (Expr τ) → List (Occurrence τ)
  | [] => []
  | expr :: exprs => expr.occurrences frames ++ Expr.listOccurrences frames exprs

/-- The names in a statement. -/
def Statement.occurrences (frames : List (Frame τ)) : Statement τ → List (Occurrence τ)
  | .declares _ value => value.occurrences frames
  | .throws value => value.occurrences frames
  | .returns value => value.occurrences frames

/-- The names in a list of statements. -/
def Statement.listOccurrences (frames : List (Frame τ)) : List (Statement τ) → List (Occurrence τ)
  | [] => []
  | statement :: statements =>
    statement.occurrences frames ++ Statement.listOccurrences frames statements

end

mutual

/-- The functions in an expression. -/
def Expr.functions : Expr τ → List (Frame τ)
  | .number _ => []
  | .string _ => []
  | .variable _ _ => []
  | .member object _ => object.functions
  | .unary _ operand => operand.functions
  | .binary _ left right => left.functions ++ right.functions
  | .call callee arguments => callee.functions ++ Expr.listFunctions arguments
  | .construct constructor arguments => constructor.functions ++ Expr.listFunctions arguments
  | .function tag params body => .ofFunction tag params body :: Statement.listFunctions body
  | .array elements => Expr.listFunctions elements

/-- The functions in a list of expressions. -/
def Expr.listFunctions : List (Expr τ) → List (Frame τ)
  | [] => []
  | expr :: exprs => expr.functions ++ Expr.listFunctions exprs

/-- The functions in a statement. -/
def Statement.functions : Statement τ → List (Frame τ)
  | .declares _ value => value.functions
  | .throws value => value.functions
  | .returns value => value.functions

/-- The functions in a list of statements. -/
def Statement.listFunctions : List (Statement τ) → List (Frame τ)
  | [] => []
  | statement :: statements => statement.functions ++ Statement.listFunctions statements

end

/-! ## Expressions whose names are right -/

variable {holds : Occurrence τ → Prop}

/-- The names of an expression inside some functions have a property, and the parameters of each
function in it are distinct. -/
def Expr.Sound (holds : Occurrence τ → Prop) (frames : List (Frame τ)) (expr : Expr τ) : Prop :=
  (∀ occurrence ∈ expr.occurrences frames, holds occurrence) ∧
    ∀ function ∈ expr.functions, function.params.Nodup

/-- All expressions of a list are sound. -/
def Expr.ListSound (holds : Occurrence τ → Prop) (frames : List (Frame τ))
    (exprs : List (Expr τ)) : Prop :=
  (∀ occurrence ∈ Expr.listOccurrences frames exprs, holds occurrence) ∧
    ∀ function ∈ Expr.listFunctions exprs, function.params.Nodup

/-- All statements of a list are sound. -/
def Statement.ListSound (holds : Occurrence τ → Prop) (frames : List (Frame τ))
    (statements : List (Statement τ)) : Prop :=
  (∀ occurrence ∈ Statement.listOccurrences frames statements, holds occurrence) ∧
    ∀ function ∈ Statement.listFunctions statements, function.params.Nodup

@[simp] theorem Expr.sound_number {value : Binary64} : (Expr.number value).Sound holds frames := by
  simp [Sound, occurrences, functions]

@[simp] theorem Expr.sound_string {text : String} : (Expr.string text).Sound holds frames := by
  simp [Sound, occurrences, functions]

@[simp] theorem Expr.sound_variable {tag : τ} {name : String} :
    (Expr.variable tag name).Sound holds frames ↔ holds ⟨tag, name, frames⟩ := by
  simp [Sound, occurrences, functions]

@[simp] theorem Expr.sound_unary {operator : Operator} {operand : Expr τ} :
    (Expr.unary operator operand).Sound holds frames ↔ operand.Sound holds frames :=
  Iff.rfl

@[simp] theorem Expr.sound_binary {operator : Operator} {left right : Expr τ} :
    (Expr.binary operator left right).Sound holds frames ↔
      left.Sound holds frames ∧ right.Sound holds frames := by
  simp only [Sound, occurrences, functions, List.forall_mem_append]
  exact and_and_and_comm

@[simp] theorem Expr.sound_call {callee : Expr τ} {arguments : List (Expr τ)} :
    (callee.call arguments).Sound holds frames ↔
      callee.Sound holds frames ∧ ListSound holds frames arguments := by
  simp only [Sound, ListSound, occurrences, functions, List.forall_mem_append]
  exact and_and_and_comm

@[simp] theorem Expr.sound_construct {constructor : Expr τ} {arguments : List (Expr τ)} :
    (constructor.construct arguments).Sound holds frames ↔
      constructor.Sound holds frames ∧ ListSound holds frames arguments := by
  simp only [Sound, ListSound, occurrences, functions, List.forall_mem_append]
  exact and_and_and_comm

@[simp] theorem Expr.sound_function {tag : τ} {params : List String}
    {body : List (Statement τ)} :
    (Expr.function tag params body).Sound holds frames ↔
      params.Nodup ∧
        Statement.ListSound holds (.ofFunction tag params body :: frames) body := by
  simp only [Sound, Statement.ListSound, occurrences, functions, List.forall_mem_cons]
  exact and_left_comm

@[simp] theorem Expr.sound_array {elements : List (Expr τ)} :
    (Expr.array elements).Sound holds frames ↔ ListSound holds frames elements :=
  Iff.rfl

@[simp] theorem Expr.list_sound_nil : ListSound holds frames ([] : List (Expr τ)) := by
  simp [ListSound, listOccurrences, listFunctions]

@[simp] theorem Expr.list_sound_cons {expr : Expr τ} {exprs : List (Expr τ)} :
    ListSound holds frames (expr :: exprs) ↔
      expr.Sound holds frames ∧ ListSound holds frames exprs := by
  simp only [Sound, ListSound, listOccurrences, listFunctions, List.forall_mem_append]
  exact and_and_and_comm

@[simp] theorem Statement.list_sound_nil :
    ListSound holds frames ([] : List (Statement τ)) := by
  simp [ListSound, listOccurrences, listFunctions]

/-- The expression of a statement. -/
def Statement.value : Statement τ → Expr τ
  | declares _ value => value
  | throws value => value
  | returns value => value

@[simp] theorem Statement.value_declares {name : String} {value : Expr τ} :
    (Statement.declares name value).value = value := rfl

@[simp] theorem Statement.value_throws {value : Expr τ} : (Statement.throws value).value = value :=
  rfl

@[simp] theorem Statement.value_returns {value : Expr τ} :
    (Statement.returns value).value = value := rfl

@[simp] theorem Statement.list_sound_cons {statement : Statement τ}
    {statements : List (Statement τ)} :
    ListSound holds frames (statement :: statements) ↔
      statement.value.Sound holds frames ∧ ListSound holds frames statements := by
  cases statement <;>
    simp only [Expr.Sound, ListSound, listOccurrences, listFunctions, occurrences, functions,
      value, List.forall_mem_append] <;>
    exact and_and_and_comm

end LetScript.JavaScript
