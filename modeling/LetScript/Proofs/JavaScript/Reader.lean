import LetScript.Proofs.JavaScript.Scanner
import LetScript.Proofs.JavaScript.Syntax

/-!
# Reading JavaScript

`Derives` is the grammar of the part of JavaScript that generated code uses. Expressions come in
levels, so that calls and properties bind more tightly than signs, signs more tightly than `*` and
`/`, and these more tightly than `+` and `-`, and so that operators of one level associate to the
left.

`read` reads a text in one pass over its tokens. It keeps a stack of what is open: operators that
wait for their right operand, brackets, and functions. An operator first completes the operators on
top of the stack that bind at least as tightly (`reduce`). The reader reads every phrase of the
grammar as what it stands for (`Derives.reads`).
-/

namespace LetScript.JavaScript

open Script (Operator)

/-! ## The grammar -/

/-- How tightly an operator binds its operands. -/
def level : Operator → Nat
  | .plus => 1
  | .minus => 1
  | .times => 2
  | .divide => 2

/-- The operator may stand before an operand. -/
def isSign : Operator → Bool
  | .plus => true
  | .minus => true
  | .times => false
  | .divide => false

/-- A part of a program: an expression of some level, a list of expressions with commas between
them, or the statements of a function. -/
inductive Phrase where
  | expression (level : Nat) (expr : Expr Unit)
  | list (exprs : List (Expr Unit))
  | statements (statements : List (Statement Unit))

/-- The names of parameters with commas between them. -/
def paramTokens (params : List String) : List Token :=
  (params.map Token.name).intersperse (.mark ',')

@[simp] theorem param_tokens_nil : paramTokens [] = [] := rfl

/-- The grammar. Level 1 is for sums, level 2 for products, level 3 for signs and level 4 for calls
and everything that needs no parentheses. -/
inductive Derives : Phrase → List Token → Prop
  | number (value : Binary64) : Derives (.expression 4 (.number value)) [.number value]
  | string (text : String) : Derives (.expression 4 (.string text)) [.string text]
  | name (name : String) : Derives (.expression 4 (.variable () name)) [.name name]
  | paren {expr : Expr Unit} {tokens : List Token} :
      Derives (.expression 1 expr) tokens →
      Derives (.expression 4 expr) (.mark '(' :: tokens ++ [.mark ')'])
  | property {object : Expr Unit} {tokens : List Token} (name : String) :
      Derives (.expression 4 object) tokens →
      Derives (.expression 4 (.member object name)) (tokens ++ [.property name])
  | index {object : Expr Unit} {tokens : List Token} (name : String) :
      Derives (.expression 4 object) tokens →
      Derives (.expression 4 (.member object name))
        (tokens ++ [.mark '[', .string name, .mark ']'])
  | call {callee : Expr Unit} {arguments : List (Expr Unit)} {tokens inner : List Token} :
      Derives (.expression 4 callee) tokens → Derives (.list arguments) inner →
      Derives (.expression 4 (.call callee arguments)) (tokens ++ .mark '(' :: inner ++ [.mark ')'])
  | construct {arguments : List (Expr Unit)} {inner : List Token} (name : String) :
      Derives (.list arguments) inner →
      Derives (.expression 4 (.construct (.variable () name) arguments))
        (.keyword .new :: .name name :: .mark '(' :: inner ++ [.mark ')'])
  | array {elements : List (Expr Unit)} {inner : List Token} :
      Derives (.list elements) inner →
      Derives (.expression 4 (.array elements)) (.mark '[' :: inner ++ [.mark ']'])
  | function {body : List (Statement Unit)} {inner : List Token} (params : List String) :
      Derives (.statements body) inner →
      Derives (.expression 4 (.function () params body))
        (.keyword .function :: .mark '(' :: paramTokens params ++ .mark ')' :: .mark '\x7b' ::
          inner ++ [.mark '\x7d'])
  | sign {operator : Operator} {operand : Expr Unit} {tokens : List Token} :
      isSign operator → Derives (.expression 3 operand) tokens →
      Derives (.expression 3 (.unary operator operand)) (.operator operator :: tokens)
  | binary {operator : Operator} {left right : Expr Unit} {tokens tokens' : List Token} :
      Derives (.expression (level operator) left) tokens →
      Derives (.expression (level operator + 1) right) tokens' →
      Derives (.expression (level operator) (.binary operator left right))
        (tokens ++ .operator operator :: tokens')
  | tighter {level : Nat} {expr : Expr Unit} {tokens : List Token} :
      Derives (.expression (level + 1) expr) tokens → Derives (.expression level expr) tokens
  | empty : Derives (.list []) []
  | single {expr : Expr Unit} {tokens : List Token} :
      Derives (.expression 1 expr) tokens → Derives (.list [expr]) tokens
  | several {first second : Expr Unit} {rest : List (Expr Unit)} {tokens tokens' : List Token} :
      Derives (.expression 1 first) tokens → Derives (.list (second :: rest)) tokens' →
      Derives (.list (first :: second :: rest)) (tokens ++ .mark ',' :: tokens')
  | done : Derives (.statements []) []
  | declares {value : Expr Unit} {rest : List (Statement Unit)} {tokens tokens' : List Token}
      (name : String) :
      Derives (.expression 1 value) tokens → Derives (.statements rest) tokens' →
      Derives (.statements (.declares name value :: rest))
        (.keyword .var :: .name name :: .mark '=' :: tokens ++ .mark ';' :: tokens')
  | throws {value : Expr Unit} {rest : List (Statement Unit)} {tokens tokens' : List Token} :
      Derives (.expression 1 value) tokens → Derives (.statements rest) tokens' →
      Derives (.statements (.throws value :: rest))
        (.keyword .throw :: tokens ++ .mark ';' :: tokens')
  | returns {value : Expr Unit} {rest : List (Statement Unit)} {tokens tokens' : List Token} :
      Derives (.expression 1 value) tokens → Derives (.statements rest) tokens' →
      Derives (.statements (.returns value :: rest))
        (.keyword .return :: tokens ++ .mark ';' :: tokens')

/-! ## The reader -/

/-- What a list of expressions is for. -/
inductive Target where
  | call (callee : Expr Unit)
  | construct (name : String)
  | array

namespace Target

/-- The bracket after the list. -/
def closer : Target → Char
  | call _ => ')'
  | construct _ => ')'
  | array => ']'

/-- The expression made of the list. -/
def build : Target → List (Expr Unit) → Expr Unit
  | call callee, exprs => .call callee exprs
  | construct name, exprs => .construct (.variable () name) exprs
  | array, exprs => .array exprs

end Target

/-- What a statement does with its expression. -/
inductive Verb where
  | declares (name : String)
  | throws
  | returns

/-- The statement that does this with an expression. -/
def Verb.build : Verb → Expr Unit → Statement Unit
  | declares name, value => .declares name value
  | throws, value => .throws value
  | returns, value => .returns value

/-- Something that is open while an expression is read. -/
inductive Pending where
  /-- A sign before its operand. -/
  | sign (operator : Operator)
  /-- An operator before its right operand. -/
  | operator (left : Expr Unit) (operator : Operator)
  | paren
  /-- A list, with the expressions read so far. -/
  | list (target : Target) (done : List (Expr Unit))
  /-- A statement of a function, after the statements read so far. -/
  | statement (verb : Verb) (params : List String) (done : List (Statement Unit))

/-- The place in a phrase that has been reached. -/
inductive Place where
  /-- Before an operand. -/
  | operand
  /-- After an operand. -/
  | value (expr : Expr Unit)
  /-- After the opening bracket of an index. -/
  | index (object : Expr Unit)
  /-- Before the closing bracket of an index. -/
  | indexed (object : Expr Unit) (name : String)
  /-- After `new`. -/
  | new
  /-- After `new` and a name. -/
  | constructor (name : String)
  /-- After `function`. -/
  | function
  /-- Before a parameter. -/
  | param (done : List String)
  /-- After a parameter. -/
  | params (done : List String)
  /-- After all parameters. -/
  | header (params : List String)
  /-- Before a statement or the end of a function. -/
  | statement (params : List String) (done : List (Statement Unit))
  /-- After `var`. -/
  | var (params : List String) (done : List (Statement Unit))
  /-- After `var` and a name. -/
  | declared (params : List String) (done : List (Statement Unit)) (name : String)

/-- A reader: the place it has reached, and what is open there, the innermost first. -/
structure Reader where
  place : Place
  stack : List Pending

/-- Complete the operators on top of the stack that bind at least as tightly as a level. -/
def reduce (least : Nat) (expr : Expr Unit) : List Pending → Expr Unit × List Pending
  | .sign operator :: stack => reduce least (.unary operator expr) stack
  | .operator left operator :: stack =>
    if least ≤ level operator then reduce least (.binary operator left expr) stack
    else (expr, .operator left operator :: stack)
  | stack => (expr, stack)

namespace Reader

/-- Read a mark after a complete expression. -/
def close (mark : Char) : Expr Unit × List Pending → Option Reader
  | (expr, .paren :: stack) => if mark = ')' then some ⟨.value expr, stack⟩ else none
  | (expr, .list target done :: stack) =>
    if mark = ',' then some ⟨.operand, .list target (done ++ [expr]) :: stack⟩
    else if mark = target.closer then some ⟨.value (target.build (done ++ [expr])), stack⟩
    else none
  | (expr, .statement verb params done :: stack) =>
    if mark = ';' then some ⟨.statement params (done ++ [verb.build expr]), stack⟩ else none
  | _ => none

/-- Read a token before an operand. -/
def startOperand (stack : List Pending) : Token → Option Reader
  | .number value => some ⟨.value (.number value), stack⟩
  | .string text => some ⟨.value (.string text), stack⟩
  | .name name => some ⟨.value (.variable () name), stack⟩
  | .operator operator =>
    if isSign operator then some ⟨.operand, .sign operator :: stack⟩ else none
  | .keyword .function => some ⟨.function, stack⟩
  | .keyword .new => some ⟨.new, stack⟩
  | .mark '(' => some ⟨.operand, .paren :: stack⟩
  | .mark '[' => some ⟨.operand, .list .array [] :: stack⟩
  | .mark mark =>
    -- the end of an empty list
    match stack with
    | .list target [] :: stack =>
      if mark = target.closer then some ⟨.value (target.build []), stack⟩ else none
    | _ => none
  | _ => none

/-- Read a token after an operand. -/
def continueValue (expr : Expr Unit) (stack : List Pending) : Token → Option Reader
  | .property name => some ⟨.value (.member expr name), stack⟩
  | .operator operator =>
    let (left, stack) := reduce (level operator) expr stack
    some ⟨.operand, .operator left operator :: stack⟩
  | .mark '(' => some ⟨.operand, .list (.call expr) [] :: stack⟩
  | .mark '[' => some ⟨.index expr, stack⟩
  | .mark mark => close mark (reduce 0 expr stack)
  | _ => none

/-- Read a token. -/
def step : Reader → Token → Option Reader
  | ⟨.operand, stack⟩, token => startOperand stack token
  | ⟨.value expr, stack⟩, token => continueValue expr stack token
  | ⟨.index object, stack⟩, .string name => some ⟨.indexed object name, stack⟩
  | ⟨.indexed object name, stack⟩, .mark ']' => some ⟨.value (.member object name), stack⟩
  | ⟨.new, stack⟩, .name name => some ⟨.constructor name, stack⟩
  | ⟨.constructor name, stack⟩, .mark '(' => some ⟨.operand, .list (.construct name) [] :: stack⟩
  | ⟨.function, stack⟩, .mark '(' => some ⟨.param [], stack⟩
  | ⟨.param done, stack⟩, .name name => some ⟨.params (done ++ [name]), stack⟩
  | ⟨.param [], stack⟩, .mark ')' => some ⟨.header [], stack⟩
  | ⟨.params done, stack⟩, .mark ',' => some ⟨.param done, stack⟩
  | ⟨.params done, stack⟩, .mark ')' => some ⟨.header done, stack⟩
  | ⟨.header params, stack⟩, .mark '\x7b' => some ⟨.statement params [], stack⟩
  | ⟨.statement params done, stack⟩, .keyword .var => some ⟨.var params done, stack⟩
  | ⟨.statement params done, stack⟩, .keyword .throw =>
    some ⟨.operand, .statement .throws params done :: stack⟩
  | ⟨.statement params done, stack⟩, .keyword .return =>
    some ⟨.operand, .statement .returns params done :: stack⟩
  | ⟨.statement params done, stack⟩, .mark '\x7d' =>
    some ⟨.value (.function () params done), stack⟩
  | ⟨.var params done, stack⟩, .name name => some ⟨.declared params done name, stack⟩
  | ⟨.declared params done name, stack⟩, .mark '=' =>
    some ⟨.operand, .statement (.declares name) params done :: stack⟩
  | _, _ => none

/-- Read tokens. -/
def run (reader : Reader) (tokens : List Token) : Option Reader := tokens.foldlM step reader

/-- The expression that has been read when nothing is open. -/
def result? : Reader → Option (Expr Unit)
  | ⟨.value expr, stack⟩ =>
    match reduce 0 expr stack with
    | (expr, []) => some expr
    | _ => none
  | _ => none

end Reader

/-- The expression with some tokens. -/
def readTokens? (tokens : List Token) : Option (Expr Unit) :=
  (Reader.run ⟨.operand, []⟩ tokens).bind Reader.result?

/-- The expression that a text stands for. -/
def read? (text : String) : Option (Expr Unit) := (tokens? text).bind readTokens?

/-! ## The reader reads the grammar -/

namespace Reader

variable {reader reader' : Reader} {tokens tokens' : List Token}

@[simp] theorem run_nil : run reader [] = some reader := rfl

@[simp] theorem run_cons {token : Token} :
    run reader (token :: tokens) = (reader.step token).bind (run · tokens) := rfl

/-- Tokens are read one part after the other. -/
theorem run_append : run reader (tokens ++ tokens') = (run reader tokens).bind (run · tokens') :=
  List.foldlM_append

end Reader

/-- Operators from some level on leave the stack alone. -/
def Fits (least : Nat) (stack : List Pending) : Prop :=
  ∀ next expr, least ≤ next → next ≤ 2 → reduce next expr stack = (expr, stack)

/-- The reader reads a phrase with some tokens as what it stands for. An expression may leave
operators on the stack, but once these are completed it is the same as if it had been read as one
operand. -/
def Phrase.Reads : Phrase → List Token → Prop
  | .expression least expr, tokens => ∀ stack, Fits least stack → ∃ last pending,
    Reader.run ⟨.operand, stack⟩ tokens = some ⟨.value last, pending ++ stack⟩ ∧
      (∀ next ≤ least, reduce next last (pending ++ stack) = reduce next expr stack) ∧
      (4 ≤ least → last = expr ∧ pending = [])
  | .list exprs, tokens => ∀ target done stack, (exprs = [] → done = []) →
    Reader.run ⟨.operand, .list target done :: stack⟩ (tokens ++ [.mark target.closer]) =
      some ⟨.value (target.build (done ++ exprs)), stack⟩
  | .statements body, tokens => ∀ params done stack,
    Reader.run ⟨.statement params done, stack⟩ (tokens ++ [.mark '\x7d']) =
      some ⟨.value (.function () params (done ++ body)), stack⟩

namespace Phrase.Reads

variable {expr : Expr Unit} {tokens tokens' : List Token}

/-- An expression of the highest level is a single operand. -/
theorem operand (h : (expression 4 expr).Reads tokens) (stack : List Pending) :
    Reader.run ⟨.operand, stack⟩ tokens = some ⟨.value expr, stack⟩ := by
  have hfits : Fits 4 stack := fun next _ hleast hmost => by omega
  obtain ⟨last, pending, hrun, -, hlast⟩ := h stack hfits
  obtain ⟨rfl, rfl⟩ := hlast (Nat.le_refl 4)
  exact hrun

/-- What is read as a single operand is an expression of the highest level. -/
theorem of_operand
    (h : ∀ stack, Reader.run ⟨.operand, stack⟩ tokens = some ⟨.value expr, stack⟩) :
    (expression 4 expr).Reads tokens :=
  fun stack _ => ⟨expr, [], h stack, fun _ _ => rfl, fun _ => ⟨rfl, rfl⟩⟩

/-- An expression after an opening bracket is complete before the next mark. -/
theorem enclosed (h : (expression 1 expr).Reads tokens) {stack : List Pending}
    (hstack : ∀ next expr, reduce next expr stack = (expr, stack)) {mark : Char}
    (hcall : mark ≠ '(') (hindex : mark ≠ '[') :
    Reader.run ⟨.operand, stack⟩ (tokens ++ .mark mark :: tokens') =
      (Reader.close mark (expr, stack)).bind (Reader.run · tokens') := by
  obtain ⟨last, pending, hrun, hreduce, -⟩ := h stack fun next expr _ _ => hstack next expr
  rw [Reader.run_append, hrun, Option.bind_some, Reader.run_cons]
  have hstep : Reader.step ⟨.value last, pending ++ stack⟩ (.mark mark) =
      Reader.close mark (reduce 0 last (pending ++ stack)) := by
    simp only [Reader.step, Reader.continueValue]
  rw [hstep, hreduce 0 (by decide), hstack]

/-- The parameters of a function are read up to the closing parenthesis. -/
theorem run_params (params done : List String) (stack : List Pending)
    (hdone : params = [] → done = []) :
    Reader.run ⟨.param done, stack⟩ (paramTokens params ++ [.mark ')']) =
      some ⟨.header (done ++ params), stack⟩ := by
  induction params generalizing done with
  | nil =>
      rw [hdone rfl]
      rfl
  | cons name params ih =>
      cases params with
      | nil => rfl
      | cons second params =>
          have hrest := ih (done ++ [name]) nofun
          rw [List.append_assoc] at hrest
          exact hrest

/-- A statement is read after those before it. -/
theorem statement {verb : Verb} {rest : List (Statement Unit)} {params : List String}
    {done : List (Statement Unit)} {stack : List Pending}
    (hvalue : (expression 1 expr).Reads tokens) (hrest : (statements rest).Reads tokens') :
    Reader.run ⟨.operand, .statement verb params done :: stack⟩
        (tokens ++ .mark ';' :: (tokens' ++ [.mark '\x7d'])) =
      some ⟨.value (.function () params (done ++ verb.build expr :: rest)), stack⟩ := by
  rw [hvalue.enclosed (fun _ _ => rfl) (by decide) (by decide)]
  have hnext := hrest params (done ++ [verb.build expr]) stack
  rw [List.append_assoc] at hnext
  exact hnext

end Phrase.Reads

/-- The reader reads every phrase of the grammar as what it stands for. -/
theorem Derives.reads {phrase : Phrase} {tokens : List Token} (h : Derives phrase tokens) :
    phrase.Reads tokens := by
  induction h with
  | number value => exact .of_operand fun stack => rfl
  | string text => exact .of_operand fun stack => rfl
  | name name => exact .of_operand fun stack => rfl
  | @paren expr tokens h ih =>
      refine .of_operand fun stack => ?_
      exact ih.enclosed (fun _ _ => rfl) (by decide) (by decide)
  | @property object tokens name h ih =>
      refine .of_operand fun stack => ?_
      rw [Reader.run_append, ih.operand]
      rfl
  | @index object tokens name h ih =>
      refine .of_operand fun stack => ?_
      rw [Reader.run_append, ih.operand]
      rfl
  | @call callee arguments tokens inner hcallee harguments ihcallee iharguments =>
      refine .of_operand fun stack => ?_
      rw [List.append_assoc, Reader.run_append, ihcallee.operand]
      exact iharguments (.call callee) [] stack fun _ => rfl
  | @construct arguments inner name harguments ih =>
      exact .of_operand fun stack => ih (.construct name) [] stack fun _ => rfl
  | @array elements inner helements ih =>
      exact .of_operand fun stack => ih .array [] stack fun _ => rfl
  | @function body inner params hbody ih =>
      refine .of_operand fun stack => ?_
      have hparams := Phrase.Reads.run_params params [] stack fun _ => rfl
      have hsplit : Token.keyword .function :: .mark '(' :: paramTokens params ++ .mark ')' ::
          .mark '\x7b' :: inner ++ [.mark '\x7d'] = [.keyword .function, .mark '('] ++
            ((paramTokens params ++ [.mark ')']) ++ .mark '\x7b' :: (inner ++ [.mark '\x7d'])) := by
        simp
      rw [hsplit, Reader.run_append]
      show Reader.run ⟨.param [], stack⟩ _ = _
      rw [Reader.run_append, hparams]
      exact ih params [] stack
  | @sign operator operand tokens hsign h ih =>
      intro stack _
      -- nothing binds more tightly than a sign
      obtain ⟨last, pending, hrun, hreduce, -⟩ := ih (.sign operator :: stack)
        fun next _ hleast hmost => by omega
      refine ⟨last, pending ++ [.sign operator], ?_, ?_, fun hle => by omega⟩
      · rw [Reader.run_cons]
        simp only [Reader.step, Reader.startOperand, hsign, if_true, Option.bind_some]
        rw [hrun, List.append_assoc]
        rfl
      · intro next hnext
        rw [List.append_assoc]
        exact hreduce next hnext
  | @binary operator left right tokens tokens' hleft hright ihleft ihright =>
      intro stack hfits
      have hlevel : level operator ≤ 2 := by cases operator <;> decide
      obtain ⟨last, pending, hrun, hreduce, -⟩ := ihleft stack hfits
      have hleftDone := (hreduce _ (Nat.le_refl _)).trans (hfits _ left (Nat.le_refl _) hlevel)
      have hfits' : Fits (level operator + 1) (.operator left operator :: stack) := by
        intro next expr hleast _
        rw [reduce, if_neg (by omega)]
      obtain ⟨last', pending', hrun', hreduce', -⟩ := ihright _ hfits'
      refine ⟨last', pending' ++ [.operator left operator], ?_, ?_, fun hle => by omega⟩
      · rw [Reader.run_append, hrun, Option.bind_some, Reader.run_cons]
        simp only [Reader.step, Reader.continueValue, hleftDone, Option.bind_some]
        rw [hrun', List.append_assoc]
        rfl
      · intro next hnext
        rw [List.append_assoc]
        refine (hreduce' next (by omega)).trans ?_
        rw [reduce, if_pos hnext]
  | @tighter least expr tokens h ih =>
      intro stack hfits
      obtain ⟨last, pending, hrun, hreduce, hlast⟩ := ih stack fun next expr hleast hmost =>
        hfits next expr (by omega) hmost
      exact ⟨last, pending, hrun, fun next hnext => hreduce next (by omega),
        fun hle => hlast (by omega)⟩
  | empty =>
      intro target done stack hdone
      rw [hdone rfl]
      cases target <;> rfl
  | @single expr tokens h ih =>
      intro target done stack _
      have hcloser : target.closer ≠ '(' ∧ target.closer ≠ '[' := by
        cases target <;> simp [Target.closer]
      rw [ih.enclosed (fun _ _ => rfl) hcloser.1 hcloser.2]
      cases target <;> rfl
  | @several first second rest tokens tokens' hfirst hrest ihfirst ihrest =>
      intro target done stack _
      rw [List.append_assoc, List.cons_append,
        ihfirst.enclosed (fun _ _ => rfl) (by decide) (by decide)]
      have hnext := ihrest target (done ++ [first]) stack nofun
      rw [List.append_assoc] at hnext
      exact hnext
  | done =>
      intro params done stack
      rw [List.append_nil]
      rfl
  | @declares value rest tokens tokens' name hvalue hrest ihvalue ihrest =>
      intro params done stack
      simp only [List.cons_append, List.append_assoc]
      exact ihvalue.statement ihrest
  | @throws value rest tokens tokens' hvalue hrest ihvalue ihrest =>
      intro params done stack
      simp only [List.cons_append, List.append_assoc]
      exact ihvalue.statement ihrest
  | @returns value rest tokens tokens' hvalue hrest ihvalue ihrest =>
      intro params done stack
      simp only [List.cons_append, List.append_assoc]
      exact ihvalue.statement ihrest

/-- An expression of the grammar is read as a whole. -/
theorem Derives.read_tokens {expr : Expr Unit} {tokens : List Token}
    (h : Derives (.expression 1 expr) tokens) : readTokens? tokens = some expr := by
  obtain ⟨last, pending, hrun, hreduce, -⟩ := h.reads [] fun _ _ _ _ => rfl
  rw [readTokens?, hrun, Option.bind_some, Reader.result?, hreduce 0 (by decide)]
  rfl

example : read? "a - b - -c * d" =
    some (.binary .minus (.binary .minus (.variable () "a") (.variable () "b"))
      (.binary .times (.unary .minus (.variable () "c")) (.variable () "d"))) := rfl

end LetScript.JavaScript
