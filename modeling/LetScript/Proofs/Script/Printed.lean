import LetScript.Proofs.JavaScript.Reader
import LetScript.Proofs.Script.Words
import LetScript.Proofs.Tree.Nodes

/-!
# The text of a script is JavaScript

`Prints` says that the text of a document is a phrase of the grammar, wherever the document is
written. Each form of generated code prints what it describes, provided that its parts do. All
expressions that the generator writes are of the highest level of the grammar, so they may stand
anywhere without parentheses. In particular a sign never meets another sign.
-/

namespace LetScript

open JavaScript

/-! ## Phrases -/

namespace JavaScript

/-- An expression of a level is an expression of each lower level. -/
theorem Derives.lower {expr : Expr Unit} {tokens : List Token} {least next : Nat}
    (h : Derives (.expression next expr) tokens) (hle : least ≤ next) :
    Derives (.expression least expr) tokens := by
  induction hle with
  | refl => exact h
  | step _ ih => exact ih h.tighter

/-- Statements one after the other. -/
theorem Derives.append_statements {first second : List (Statement Unit)}
    {tokens tokens' : List Token} (h : Derives (.statements first) tokens)
    (h' : Derives (.statements second) tokens') :
    Derives (.statements (first ++ second)) (tokens ++ tokens') := by
  induction first generalizing tokens with
  | nil =>
      cases h
      exact h'
  | cons statement rest ih =>
      cases h with
      | declares name hvalue hrest =>
          have hall := Derives.declares name hvalue (ih hrest)
          simpa using hall
      | throws hvalue hrest =>
          have hall := Derives.throws hvalue (ih hrest)
          simpa using hall
      | returns hvalue hrest =>
          have hall := Derives.returns hvalue (ih hrest)
          simpa using hall

/-- What is scanned before an operand is scanned between tokens. -/
theorem Scans.between {chars : List Char} {tokens : List Token} {after : Phase}
    (h : Scans .opening chars tokens after) : Scans .between chars tokens after := by
  intro mode hmode
  cases hmode
  exact h .idle (.blank false)

/-- What ends between tokens ends after an operand. -/
theorem Scans.to_ended {before : Phase} {chars : List Char} {tokens : List Token}
    (h : Scans before chars tokens .between) : Scans before chars tokens .ended := by
  intro mode hmode
  obtain ⟨found, mode', hrun, hmode', heq⟩ := h mode hmode
  cases hmode'
  exact ⟨found, .idle, hrun, .idle, heq⟩

end JavaScript

namespace Script

/-- The text of a document is a phrase, wherever the document is written. -/
def Prints (before : Phase) (doc : Doc) (phrase : Phrase) (after : Phase) : Prop :=
  ∃ tokens, doc.Scans before tokens after ∧ Derives phrase tokens

/-- The text of a document is an expression that may stand anywhere. -/
abbrev PrintsOperand (doc : Doc) (expr : JavaScript.Expr Unit) : Prop :=
  Prints .opening doc (.expression 4 expr) .ended

/-- The text of a document is a sequence of statements. -/
abbrev PrintsStatements (doc : Doc) (statements : List (Statement Unit)) : Prop :=
  Prints .between doc (.statements statements) .between

/-- The text of a document is a list of expressions. -/
abbrev PrintsList (doc : Doc) (exprs : List (JavaScript.Expr Unit)) : Prop :=
  Prints .between doc (.list exprs) .between

/-! ## Expressions -/

variable {doc doc' : Doc} {expr expr' : JavaScript.Expr Unit}

/-- The text of a name is a variable. -/
theorem prints_name {name : String} (h : IsName name) :
    PrintsOperand (.text name) (.variable () name) :=
  ⟨_, Doc.scans_text h.scans, .name name⟩

/-- The text of a property is a property. -/
theorem prints_property {object : String} (h : IsName object) (name : String) :
    PrintsOperand (.text (propertyText object name)) (.member (.variable () object) name) := by
  unfold propertyText
  split
  next hplain =>
    exact ⟨_, Doc.scans_text (h.scans_property hplain), Derives.property name (.name object)⟩
  next =>
    have hopen : Scans .ended "[".toList [.mark '['] .between :=
      .ended (.of_run .between rfl) (by decide)
    have hclose : Scans .between "]".toList [.mark ']'] .ended := .of_run .idle rfl
    have hscans := ((h.scans.append hopen).append (scans_string_literal name)).append hclose
    simp only [← String.toList_append] at hscans
    exact ⟨_, Doc.scans_text hscans, Derives.index name (.name object)⟩

/-- An opening parenthesis before an operand. -/
theorem scans_open : Scans .opening "(".toList [.mark '('] .opening :=
  .opening (.of_run (.blank false) rfl) rfl

/-- A closing parenthesis after an operand. -/
theorem scans_close : Scans .ended ")".toList [.mark ')'] .ended :=
  .ended (.of_run .idle rfl) (by decide)

/-- An expression in parentheses. -/
theorem prints_paren (h : PrintsOperand doc expr) :
    PrintsOperand (.text "(" ++ doc ++ .text ")") expr := by
  obtain ⟨tokens, hscans, hderives⟩ := h
  exact ⟨_, ((Doc.scans_text scans_open).append hscans).append (Doc.scans_text scans_close),
    Derives.paren (hderives.lower (by decide))⟩

/-- A sign before its operand. -/
theorem prints_unary {operator : Operator} (hsign : isSign operator)
    (h : PrintsOperand doc expr) :
    PrintsOperand (.text ("(" ++ operator.symbol) ++ doc ++ .text ")") (.unary operator expr) := by
  obtain ⟨tokens, hscans, hderives⟩ := h
  have hopen : Scans .opening ("(" ++ operator.symbol).toList [.mark '(', .operator operator]
      .opening := by
    cases operator with
    | plus => exact .opening (.of_run (.operator (by decide)) rfl) rfl
    | minus => exact .opening (.of_run (.operator (by decide)) rfl) rfl
    | times => cases hsign
    | divide => cases hsign
  have hunary : Derives (.expression 3 (.unary operator expr)) (.operator operator :: tokens) :=
    .sign hsign hderives.tighter
  exact ⟨_, ((Doc.scans_text hopen).append hscans).append (Doc.scans_text scans_close),
    Derives.paren (hunary.lower (by decide))⟩

/-- An operator between its operands. -/
theorem prints_binary (operator : Operator) (h : PrintsOperand doc expr)
    (h' : PrintsOperand doc' expr') :
    PrintsOperand (.text "(" ++ doc ++ .text (" " ++ operator.symbol ++ " ") ++ doc' ++ .text ")")
      (.binary operator expr expr') := by
  obtain ⟨tokens, hscans, hderives⟩ := h
  obtain ⟨tokens', hscans', hderives'⟩ := h'
  have hoperator : Scans .ended (" " ++ operator.symbol ++ " ").toList [.operator operator]
      .opening := by
    cases operator <;> exact .ended (.of_run (.blank false) rfl) (by decide)
  have hbinary : Derives (.expression 1 (.binary operator expr expr'))
      (tokens ++ .operator operator :: tokens') := by
    have hlevel : 1 ≤ level operator ∧ level operator ≤ 2 := by cases operator <;> decide
    have hleft : Derives (.expression (level operator) expr) tokens := hderives.lower (by omega)
    have hright : Derives (.expression (level operator + 1) expr') tokens' :=
      hderives'.lower (by omega)
    exact (Derives.binary hleft hright).lower hlevel.1
  refine ⟨_, ((((Doc.scans_text scans_open).append hscans).append
    (Doc.scans_text hoperator)).append hscans').append (Doc.scans_text scans_close), ?_⟩
  simpa using Derives.paren hbinary

/-- A call with one argument. -/
theorem prints_call (h : PrintsOperand doc expr) (h' : PrintsOperand doc' expr') :
    PrintsOperand (doc ++ .text "(" ++ doc' ++ .text ")") (.call expr [expr']) := by
  obtain ⟨tokens, hscans, hderives⟩ := h
  obtain ⟨tokens', hscans', hderives'⟩ := h'
  have hopen : Scans .ended "(".toList [.mark '('] .opening :=
    .ended (.of_run (.blank false) rfl) (by decide)
  refine ⟨_, ((hscans.append (Doc.scans_text hopen)).append hscans').append
    (Doc.scans_text scans_close), ?_⟩
  simpa using Derives.call hderives (.single (hderives'.lower (by decide)))

/-- A number. -/
theorem prints_number {value : Binary64} (hpositive : value.negative = false) :
    PrintsOperand (.text (numberText value)) (numeric () value) := by
  unfold numeric
  split
  next hinfinite =>
    have hname : IsName "Infinity" := ⟨⟨'I', _, rfl, rfl, List.all_eq_true.1 rfl⟩, rfl⟩
    rw [numberText, if_pos hinfinite]
    exact prints_name hname
  next hinfinite =>
    split
    next hundefined =>
      have hname : IsName "NaN" := ⟨⟨'N', _, rfl, rfl, List.all_eq_true.1 rfl⟩, rfl⟩
      rw [numberText, if_neg hinfinite, Binary64.toText, if_pos hundefined]
      exact prints_name hname
    next hundefined =>
      have hne : value.magnitude ≠ Binary64.infinity := by
        simpa [Binary64.isInfinite] using hinfinite
      have hfinite : value.magnitude < Binary64.infinity := by omega
      exact ⟨_, Doc.scans_text (scans_number_text hfinite hpositive), .number value⟩

/-! ## Statements -/

variable {statements statements' : List (Statement Unit)}

/-- Statements one after the other. -/
theorem PrintsStatements.append (h : PrintsStatements doc statements)
    (h' : PrintsStatements doc' statements') :
    PrintsStatements (doc ++ doc') (statements ++ statements') := by
  obtain ⟨tokens, hscans, hderives⟩ := h
  obtain ⟨tokens', hscans', hderives'⟩ := h'
  exact ⟨_, hscans.append hscans', hderives.append_statements hderives'⟩

/-- The tokens of a statement that throws an error. -/
def thrownTokens (message : String) : List JavaScript.Token :=
  [.keyword .throw, .keyword .new, .name "Error", .mark '(', .string message, .mark ')', .mark ';']

/-- A statement that throws an error is scanned as its tokens. -/
theorem scans_throw_statement (message : String) :
    Scans .between (throwStatement message).toList (thrownTokens message) .between := by
  have hopen : Scans .between "throw new Error(".toList
      [.keyword .throw, .keyword .new, .name "Error", .mark '('] .between := .of_run .between rfl
  have hclose : Scans .between ");".toList [.mark ')', .mark ';'] .between := .of_run .between rfl
  have hscans := (hopen.append (scans_string_literal message)).append hclose
  simp only [← String.toList_append] at hscans
  exact hscans

/-- The tokens of a statement that throws an error are such a statement. -/
theorem derives_thrown (message : String) :
    Derives (.statements [thrown () message]) (thrownTokens message) := by
  have herror : Derives (.expression 4 (.construct (.variable () "Error") [.string message]))
      [.keyword .new, .name "Error", .mark '(', .string message, .mark ')'] :=
    .construct "Error" (.single ((Derives.string message).lower (by decide)))
  exact Derives.throws (herror.lower (by decide)) .done

/-- Statements that throw errors, a line for each. -/
theorem prints_failure_lines (failures : List String) :
    PrintsStatements (failureLines failures) (failures.map (thrown ())) := by
  induction failures with
  | nil => exact ⟨[], Doc.scans_nothing .between, .done⟩
  | cons message failures ih =>
      have hline : PrintsStatements (.line (throwStatement message)) [thrown () message] :=
        ⟨_, Doc.scans_line (scans_throw_statement message).to_ended, derives_thrown message⟩
      exact hline.append ih

/-- The statement that returns a value. -/
theorem prints_return_line (h : PrintsOperand doc expr) :
    PrintsStatements (returnLine doc) [.returns expr] := by
  obtain ⟨tokens, hscans, hderives⟩ := h
  have hreturn : Scans .between "return ".toList [.keyword .return] .opening :=
    .of_run (.blank true) rfl
  have hend : Scans .ended ";".toList [.mark ';'] .ended := .ended (.of_run .idle rfl) (by decide)
  refine ⟨_, ((Doc.scans_text hreturn).append hscans).append (Doc.scans_line hend), ?_⟩
  simpa using Derives.returns (hderives.lower (by decide)) .done

/-- A value that is returned after some errors. -/
theorem prints_returned (failures : List String) (h : PrintsOperand doc expr) :
    PrintsStatements (failureLines failures ++ returnLine doc)
      (failures.map (thrown ()) ++ [.returns expr]) :=
  (prints_failure_lines failures).append (prints_return_line h)

/-! ## Functions -/

/-- Names with commas between them are scanned as such. -/
theorem scans_params {params : List String} (h : ∀ param ∈ params, IsName param) :
    Scans .between (String.intercalate ", " params).toList (paramTokens params) .ended := by
  induction params with
  | nil => exact (Scans.nil .between).to_ended
  | cons first params ih =>
      obtain ⟨hfirst, hrest⟩ := List.forall_mem_cons.1 h
      cases params with
      | nil =>
          rw [String.intercalate_singleton]
          exact hfirst.scans.between
      | cons second params =>
          have hcomma : Scans .ended ", ".toList [.mark ','] .between :=
            .ended (.of_run .between rfl) (by decide)
          rw [String.intercalate_cons_cons, String.toList_append, String.toList_append]
          exact (hfirst.scans.between.append hcomma).append (ih hrest)

/-- A function with its statements on lines of their own. -/
theorem prints_function {params : List String} (hparams : ∀ param ∈ params, IsName param)
    (h : PrintsStatements doc statements) :
    PrintsOperand (.line ("function (" ++ String.intercalate ", " params ++ ") \x7b") ++
      .nest doc ++ .text "\x7d") (.function () params statements) := by
  obtain ⟨tokens, hscans, hderives⟩ := h
  have hopen : Scans .opening "function (".toList [.keyword .function, .mark '('] .between :=
    .opening (.of_run .between rfl) rfl
  have hclose : Scans .ended ") \x7b".toList [.mark ')', .mark '\x7b'] .ended :=
    .ended (.of_run .idle rfl) (by decide)
  have hheader := (hopen.append (scans_params hparams)).append hclose
  simp only [← String.toList_append] at hheader
  have hend : Scans .between "\x7d".toList [.mark '\x7d'] .ended := .of_run .idle rfl
  refine ⟨_, ((Doc.scans_line hheader).append hscans.nest).append (Doc.scans_text hend), ?_⟩
  simpa using Derives.function params hderives

/-- A function that is called at once. -/
theorem derives_called {tokens : List JavaScript.Token}
    (h : Derives (.statements statements) tokens) :
    Derives (.expression 4 (called () statements))
      ([.mark '(', .keyword .function, .mark '(', .mark ')', .mark '\x7b'] ++ tokens ++
        [.mark '\x7d', .mark ')', .mark '(', .mark ')']) := by
  have hfunction := Derives.paren ((Derives.function [] h).lower (by decide))
  simpa [called] using Derives.call hfunction .empty

/-- A function that is called at once, with its statements on lines of their own. -/
theorem prints_invoked (h : PrintsStatements doc statements) :
    PrintsOperand (invoked doc) (called () statements) := by
  obtain ⟨tokens, hscans, hderives⟩ := h
  have hopen : Scans .opening "(function () \x7b".toList
      [.mark '(', .keyword .function, .mark '(', .mark ')', .mark '\x7b'] .ended :=
    .opening (.of_run .idle rfl) rfl
  have hclose : Scans .between "\x7d)()".toList [.mark '\x7d', .mark ')', .mark '(', .mark ')']
      .ended := .of_run .idle rfl
  exact ⟨_, ((Doc.scans_line hopen).append hscans.nest).append (Doc.scans_text hclose),
    derives_called hderives⟩

/-- An expression that throws an error. -/
theorem prints_failure (message : String) :
    PrintsOperand (.text (failureText message)) (failing () message) := by
  have hopen : Scans .opening "(function () \x7b ".toList
      [.mark '(', .keyword .function, .mark '(', .mark ')', .mark '\x7b'] .between :=
    .opening (.of_run .between rfl) rfl
  have hclose : Scans .between " \x7d)()".toList [.mark '\x7d', .mark ')', .mark '(', .mark ')']
      .ended := .of_run .idle rfl
  have hscans := (hopen.append (scans_throw_statement message)).append hclose
  simp only [← String.toList_append] at hscans
  exact ⟨_, Doc.scans_text hscans, derives_called (derives_thrown message)⟩

/-- A function with parameters, also as the argument of the support library. -/
theorem prints_function_of {params : List String} (hparams : ∀ param ∈ params, IsName param)
    (curried : Bool) (failures : List String) (h : PrintsOperand doc expr) :
    PrintsOperand (functionDoc curried params failures doc)
      (functionOf () curried () params failures expr) := by
  have hfunction := prints_function hparams (prints_returned failures h)
  cases curried with
  | false => exact hfunction
  | true =>
      obtain ⟨tokens, hscans, hderives⟩ := hfunction
      have hopen : Scans .opening (libraryName ++ ".curry(").toList
          [.name "$rt", .property "curry", .mark '('] .opening :=
        .opening (.of_run (.blank false) rfl) rfl
      have hcomma : Scans .ended ", ".toList [.mark ','] .opening :=
        .ended (.of_run (.blank false) rfl) (by decide)
      have hheader := (hopen.append (scans_repr params.length)).append hcomma
      simp only [← String.toList_append] at hheader
      refine ⟨_, ((Doc.scans_text hheader).append hscans).append (Doc.scans_text scans_close), ?_⟩
      have hcallee := Derives.property "curry" (.name "$rt")
      have harguments := Derives.several
        ((Derives.number (natural params.length)).lower (by decide))
        (.single (hderives.lower (by decide)))
      simpa [functionOf, library] using Derives.call hcallee harguments

/-! ## Records -/

/-- The tokens of a definition of a record, given those of its value. -/
def entryTokens (name : String) (tokens : List JavaScript.Token) : List JavaScript.Token :=
  [.mark '[', .string name, .mark ',', .keyword .function, .mark '(', .mark ')', .mark '\x7b',
    .keyword .return] ++ tokens ++ [.mark ';', .mark '\x7d', .mark ']']

/-- The tokens of a definition of a record are its name and a function. -/
theorem derives_entry (name : String) {tokens : List JavaScript.Token}
    (h : Derives (.expression 4 expr) tokens) :
    Derives (.expression 4 (entry () name expr)) (entryTokens name tokens) := by
  have hbody := Derives.returns (h.lower (by decide)) .done
  have helements := Derives.several ((Derives.string name).lower (by decide))
    (.single ((Derives.function [] hbody).lower (by decide)))
  simpa [entry, entryTokens] using Derives.array helements

/-- The lines of a definition of a record are scanned as its tokens. A comma follows all but the
last. -/
theorem scans_entry_doc (name : String) {tokens : List JavaScript.Token}
    (h : doc.Scans .opening tokens .ended) (isLast : Bool) :
    (entryDoc name doc isLast).Scans .between
      (entryTokens name tokens ++ if isLast then [] else [.mark ',']) .between := by
  have hopen : Scans .between "[".toList [.mark '['] .between := .of_run .between rfl
  have hheader : Scans .between ", function () \x7b".toList
      [.mark ',', .keyword .function, .mark '(', .mark ')', .mark '\x7b'] .ended :=
    .of_run .idle rfl
  have hfirst := (hopen.append (scans_string_literal name)).append hheader
  simp only [← String.toList_append] at hfirst
  have hreturn : Scans .between "return ".toList [.keyword .return] .opening :=
    .of_run (.blank true) rfl
  have hend : Scans .ended ";".toList [.mark ';'] .ended := .ended (.of_run .idle rfl) (by decide)
  have hclose : Scans .between (if isLast then "\x7d]" else "\x7d],").toList
      ([.mark '\x7d', .mark ']'] ++ if isLast then [] else [.mark ',']) .ended := by
    cases isLast <;> exact .of_run .idle rfl
  have hbody := ((Doc.scans_text hreturn).append h).append (Doc.scans_line hend)
  have hall := ((Doc.scans_line hfirst).append hbody.nest).append (Doc.scans_line hclose)
  simpa [entryTokens, entryDoc, returnLine] using hall

/-- A definition of a record before others. -/
theorem prints_entries_cons (name : String) {value : Expr} {entries : List Entry}
    (h : PrintsOperand value.doc value.code)
    (hrest : PrintsList (Entry.listDoc entries) (Entry.codeList entries)) :
    PrintsList (Entry.listDoc (.mk name value :: entries))
      (Entry.codeList (.mk name value :: entries)) := by
  obtain ⟨tokens, hscans, hderives⟩ := h
  obtain ⟨tokens', hscans', hderives'⟩ := hrest
  have hentry : Derives (.expression 1 (entry () name value.code)) (entryTokens name tokens) :=
    (derives_entry name hderives).lower (by decide)
  refine ⟨_, (scans_entry_doc name hscans entries.isEmpty).append hscans', ?_⟩
  cases entries with
  | nil =>
      cases hderives'
      simpa [Entry.codeList] using Derives.single hentry
  | cons second entries =>
      obtain ⟨name', value'⟩ := second
      simpa [Entry.codeList] using Derives.several hentry hderives'

/-- A record of definitions. -/
theorem prints_record {entries : List Entry}
    (h : PrintsList (Entry.listDoc entries) (Entry.codeList entries)) :
    PrintsOperand (recordDoc entries.isEmpty (Entry.listDoc entries))
      (recordOf () (Entry.codeList entries)) := by
  have hcallee := Derives.property "record" (.name "$rt")
  cases entries with
  | nil =>
      have hscans : Scans .opening (libraryName ++ ".record([])").toList
          [.name "$rt", .property "record", .mark '(', .mark '[', .mark ']', .mark ')']
          .ended := .opening (.of_run .idle rfl) rfl
      refine ⟨_, Doc.scans_text hscans, ?_⟩
      simpa [recordOf, library, Entry.codeList] using
        Derives.call hcallee (.single ((Derives.array .empty).lower (by decide)))
  | cons first entries =>
      obtain ⟨tokens, hscans, hderives⟩ := h
      have hopen : Scans .opening (libraryName ++ ".record([").toList
          [.name "$rt", .property "record", .mark '(', .mark '['] .ended :=
        .opening (.of_run .idle rfl) rfl
      have hclose : Scans .between "])".toList [.mark ']', .mark ')'] .ended := .of_run .idle rfl
      refine ⟨_, ((Doc.scans_line hopen).append hscans.nest).append (Doc.scans_text hclose), ?_⟩
      simpa [recordOf, library] using
        Derives.call hcallee (.single ((Derives.array hderives).lower (by decide)))

/-- A body in which a variable holds a record of definitions. -/
theorem prints_scoped {name : String} (hname : IsName name) {record : Doc}
    {entries : List (JavaScript.Expr Unit)} (hrecord : PrintsOperand record (recordOf () entries))
    (failures : List String) (h : PrintsOperand doc expr) :
    PrintsOperand (invoked (.text ("var " ++ name ++ " = ") ++ record ++ .line ";" ++
      failureLines failures ++ returnLine doc)) (scopedOf () () name entries failures expr) := by
  obtain ⟨tokens, hscans, hderives⟩ := hrecord
  have hvar : Scans .between "var ".toList [.keyword .var] .opening := .of_run (.blank false) rfl
  have hequals : Scans .ended " = ".toList [.mark '='] .opening :=
    .ended (.of_run (.blank false) rfl) (by decide)
  have hheader := (hvar.append hname.scans).append hequals
  simp only [← String.toList_append] at hheader
  have hend : Scans .ended ";".toList [.mark ';'] .ended := .ended (.of_run .idle rfl) (by decide)
  have hdeclares : PrintsStatements (.text ("var " ++ name ++ " = ") ++ record ++ .line ";")
      [.declares name (recordOf () entries)] := by
    refine ⟨_, ((Doc.scans_text hheader).append hscans).append (Doc.scans_line hend), ?_⟩
    simpa using Derives.declares name (hderives.lower (by decide)) .done
  have hstatements := (hdeclares.append (prints_failure_lines failures)).append
    (prints_return_line h)
  have hinvoked := prints_invoked hstatements
  rw [List.append_assoc] at hinvoked
  exact hinvoked

end Script

/-! ## Trees -/

open Script

variable (bindings : Bindings) (curry : Bool)

/-- A number of a program has no sign. -/
def Node.Unsigned : Node → Prop
  | .tree (.literal _ _ value) => value.negative = false
  | _ => True

/-- The text of an identifier is its script. -/
theorem prints_identifier (id : NodeId) (name : String) :
    PrintsOperand (lowerIdentifier bindings id name).doc
      (lowerIdentifier bindings id name).code := by
  unfold lowerIdentifier
  split
  · split
    · exact prints_name (is_name_mangle name)
    · exact prints_property (is_name_scope_variable _) name
    · exact prints_property ⟨⟨'$', _, rfl, rfl, List.all_eq_true.1 rfl⟩, rfl⟩ name
  · exact prints_failure _
  · exact prints_failure _

mutual

/-- The text of a tree is the JavaScript expression that its script describes. -/
theorem Tree.lower_prints (tree : Tree) (h : tree.Every Node.Unsigned) :
    (tree.lower bindings curry).Yields fun script => PrintsOperand script.doc script.code := by
  cases tree with
  | identifier id token =>
      rw [Tree.lower]
      exact .pure (prints_identifier bindings id token.value)
  | literal id token value =>
      rw [Tree.lower]
      refine .pure ?_
      rw [code_number]
      exact prints_number (Tree.every_literal.1 h)
  | placeholder id token =>
      rw [Tree.lower]
      exact .pure (prints_failure _)
  | fault f =>
      rw [Tree.lower]
      exact .pure (prints_failure _)
  | paren id opener inner closer =>
      rw [Tree.lower]
      exact inner.lower_prints (Tree.every_paren.1 h).2
  | letIn id letToken items inToken body =>
      obtain ⟨-, hitems, hbody⟩ := Tree.every_let_in.1 h
      rw [Tree.lower]
      refine (Item.lower_list_prints Node.ofBinding items hitems).bind fun entries hentries =>
        (body.lower_prints hbody).bind fun script hscript => .pure ?_
      exact prints_scoped (is_name_record_variable bindings id) (prints_record hentries) _ hscript
  | function id fnToken params arrow body =>
      obtain ⟨-, hbody⟩ := Tree.every_function.1 h
      let names := paramNames ((params.filterMap Param.declared?).map (·.2))
      have hnames : names.Yields fun chosen => ∀ param ∈ chosen, IsName param :=
        fun n param hparam => is_name_of_mem_param_names hparam
      rw [Tree.lower]
      exact hnames.bind fun chosen hchosen => (body.lower_prints hbody).bind fun script hscript =>
        .pure (prints_function_of hchosen curry _ hscript)
  | record id opener items closer =>
      obtain ⟨-, hitems⟩ := Tree.every_record.1 h
      rw [Tree.lower]
      refine (Item.lower_list_prints Node.ofField items hitems).bind fun entries hentries => ?_
      cases (items.filterMap Item.fault?).map faultMessage with
      | nil => exact .pure (prints_record hentries)
      | cons message failures =>
          exact .pure (prints_invoked (prints_returned _ (prints_record hentries)))
  | unary id operator operand =>
      obtain ⟨-, hoperand⟩ := Tree.every_unary.1 h
      rw [Tree.lower]
      cases hsign : unaryOperator? operator.kind with
      | none => exact .pure (prints_failure _)
      | some sign =>
          have hisSign : isSign sign := by
            unfold unaryOperator? at hsign
            split at hsign <;> cases hsign <;> rfl
          exact (operand.lower_prints hoperand).bind fun script hscript =>
            .pure (prints_unary hisSign hscript)
  | binary id left operator right =>
      obtain ⟨-, hleft, hright⟩ := Tree.every_binary.1 h
      rw [Tree.lower]
      cases binaryOperator? operator.kind with
      | none => exact .pure (prints_failure _)
      | some sign =>
          exact (left.lower_prints hleft).bind fun script hscript =>
            (right.lower_prints hright).bind fun script' hscript' =>
              .pure (prints_binary sign hscript hscript')
  | apply id callee argument =>
      obtain ⟨-, hcallee, hargument⟩ := Tree.every_apply.1 h
      rw [Tree.lower]
      refine (callee.lower_prints hcallee).bind fun script hscript =>
        (argument.lower_prints hargument).bind fun script' hscript' => .pure ?_
      split
      · exact prints_call hscript hscript'
      · exact prints_call (prints_paren hscript) hscript'

/-- The text of the definitions of a list is what their scripts describe. -/
theorem Item.lower_list_prints (toNode : Item → Node) (items : List Item)
    (h : ∀ item ∈ items, item.Every toNode Node.Unsigned) :
    (Item.lowerList bindings curry items).Yields fun entries =>
      PrintsList (Entry.listDoc entries) (Entry.codeList entries) := by
  cases items with
  | nil =>
      rw [Item.lowerList]
      exact .pure ⟨[], Doc.scans_nothing .between, .empty⟩
  | cons item items =>
      obtain ⟨hitem, hitems⟩ := List.forall_mem_cons.1 h
      have hrest := Item.lower_list_prints toNode items hitems
      cases item with
      | fault f =>
          rw [Item.lowerList]
          exact hrest
      | definition id name equals value =>
          rw [Item.lowerList]
          exact (value.lower_prints hitem.2).bind fun script hscript =>
            hrest.bind fun entries hentries => .pure (prints_entries_cons _ hscript hentries)

end

end LetScript
