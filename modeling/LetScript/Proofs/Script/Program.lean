import LetScript.Compile
import LetScript.Proofs.Parser.Coverage
import LetScript.Proofs.Script.Capture
import LetScript.Proofs.Script.Printed
import LetScript.Proofs.Token.Numerals

/-!
# Generated programs

The text that is generated for a source is read back as the image of its tree
(`Tree.generate_reads_image`), and the names in it refer to what they were made for
(`Tree.generated_names_refer`). Numbers of a source have no sign, so a sign in the text is never
followed by another.
-/

namespace LetScript

open JavaScript Script

/-! ## Numbers of a source -/

/-- The value of a token that is a number has no sign. -/
def Token.Unsigned (token : Token) : Prop :=
  token.kind = .number → ∀ value, Binary64.read? token.value = some value → value.negative = false

/-- The numbers of a source have no signs. -/
theorem Token.read_unsigned {source file : String} {token : Token}
    (h : token ∈ (read source file).toList) : token.Unsigned := by
  intro hkind value hvalue
  obtain ⟨decimal, hnumeral⟩ := Token.read_number h hkind
  rw [Binary64.read?, hnumeral] at hvalue
  obtain rfl := Option.some.inj hvalue
  rfl

/-- The tokens of a program are tokens of the source. -/
theorem Token.mem_of_mem_program {tokens : Array Token} {token : Token}
    (h : token ∈ Token.program tokens) : token ∈ tokens.toList :=
  (List.takeWhile_sublist _).subset (List.mem_filter.1 h).1

mutual

/-- The numbers of a tree are tokens that it derives. -/
theorem Tree.Derives.unsigned {tree : Tree} {w : List Token} (h : tree.Derives w)
    (hw : ∀ token ∈ w, token.Unsigned) : tree.Every Node.Unsigned := by
  cases h with
  | identifier _ => exact Tree.every_identifier.2 trivial
  | literal hkind hvalue =>
      exact Tree.every_literal.2 (List.forall_mem_singleton.1 hw hkind _ hvalue)
  | placeholder _ => exact Tree.every_placeholder.2 trivial
  | fault => exact Tree.every_fault.2 trivial
  | paren _ hinner _ =>
      simp only [List.forall_mem_append, List.forall_mem_cons, List.cons_append] at hw
      exact Tree.every_paren.2 ⟨trivial, hinner.unsigned hw.2.1⟩
  | letIn _ hitems _ hbody =>
      simp only [List.forall_mem_append, List.forall_mem_cons, List.cons_append] at hw
      exact Tree.every_let_in.2 ⟨trivial, hitems.unsigned hw.2.1, hbody.unsigned hw.2.2.2⟩
  | function _ _ _ hbody =>
      simp only [List.forall_mem_append, List.forall_mem_cons, List.cons_append] at hw
      exact Tree.every_function.2 ⟨trivial, hbody.unsigned hw.2.2.2⟩
  | record _ hitems _ =>
      simp only [List.forall_mem_append, List.forall_mem_cons, List.cons_append] at hw
      exact Tree.every_record.2 ⟨trivial, hitems.unsigned hw.2.1⟩
  | unary _ hoperand =>
      exact Tree.every_unary.2 ⟨trivial, hoperand.unsigned (List.forall_mem_cons.1 hw).2⟩
  | binary hleft _ hright =>
      simp only [List.forall_mem_append, List.forall_mem_cons] at hw
      exact Tree.every_binary.2 ⟨trivial, hleft.unsigned hw.1, hright.unsigned hw.2.2⟩
  | apply hcallee hargument =>
      obtain ⟨hw, hw'⟩ := List.forall_mem_append.1 hw
      exact Tree.every_apply.2 ⟨trivial, hcallee.unsigned hw, hargument.unsigned hw'⟩

/-- The numbers of an item are tokens that it derives. -/
theorem Item.Derives.unsigned {item : Item} {w : List Token} (h : item.Derives w)
    (toNode : Item → Node) (hnode : ∀ item, (toNode item).Unsigned)
    (hw : ∀ token ∈ w, token.Unsigned) : item.Every toNode Node.Unsigned := by
  cases h with
  | definition _ _ hvalue =>
      simp only [List.forall_mem_cons] at hw
      exact ⟨hnode _, hvalue.unsigned hw.2.2⟩
  | fault => exact hnode _

/-- The numbers of the items of a let are tokens that they derive. -/
theorem Item.LetDerives.unsigned {items : List Item} {w : List Token} (h : Item.LetDerives items w)
    (hw : ∀ token ∈ w, token.Unsigned) :
    ∀ item ∈ items, item.Every Node.ofBinding Node.Unsigned := by
  have hnode (item : Item) : (Node.ofBinding item).Unsigned := by cases item <;> trivial
  cases h with
  | nil => exact fun _ hmem => absurd hmem List.not_mem_nil
  | last hitem => exact List.forall_mem_singleton.2 (hitem.unsigned Node.ofBinding hnode hw)
  | cons hitem _ hitems =>
      simp only [List.forall_mem_append, List.forall_mem_cons] at hw
      exact List.forall_mem_cons.2
        ⟨hitem.unsigned Node.ofBinding hnode hw.1, hitems.unsigned hw.2.2⟩

/-- The numbers of the items of a record are tokens that they derive. -/
theorem Item.RecordDerives.unsigned {items : List Item} {w : List Token}
    (h : Item.RecordDerives items w) (hw : ∀ token ∈ w, token.Unsigned) :
    ∀ item ∈ items, item.Every Node.ofField Node.Unsigned := by
  have hnode (item : Item) : (Node.ofField item).Unsigned := by cases item <;> trivial
  cases h with
  | nil => exact fun _ hmem => absurd hmem List.not_mem_nil
  | @last f => exact List.forall_mem_singleton.2 (hnode (.fault f))
  | cons hitem _ hitems =>
      simp only [List.forall_mem_append, List.forall_mem_cons] at hw
      exact List.forall_mem_cons.2
        ⟨hitem.unsigned Node.ofField hnode hw.1, hitems.unsigned hw.2.2⟩

end

/-- The numbers of the tree of a source have no signs. -/
theorem Tree.unsigned_parse (source file : String) :
    (Tree.parse (Token.read source file)).Every Node.Unsigned :=
  (Tree.parse_derives _).unsigned fun _ htoken =>
    Token.read_unsigned (Token.mem_of_mem_program htoken)

/-! ## Reading the text -/

/-- A text with the tokens of an expression is read as the expression. -/
theorem JavaScript.read_of_scans {text : String} {tokens : List JavaScript.Token}
    {expr : JavaScript.Expr Unit} (hscans : Scans .opening text.toList tokens .ended)
    (hderives : Derives (.expression 4 expr) tokens) :
    JavaScript.tokens? text = some tokens ∧ JavaScript.read? text = some expr := by
  obtain ⟨found, mode, hrun, hmode, heq⟩ := hscans .idle (.blank false)
  have htokens : JavaScript.tokens? text = some tokens := by
    have hfound : tokens = found ++ mode.pending := heq
    rw [JavaScript.tokens?, hrun]
    simp [hmode.pending_eq, hfound]
  refine ⟨htokens, ?_⟩
  rw [JavaScript.read?, htokens]
  exact (hderives.lower (by decide)).read_tokens

/-- The text of a tree is that of the document of its script. -/
theorem Tree.to_list_generate (tree : Tree) (bindings : Bindings) (options : Options) :
    (tree.generate bindings options).toList =
      (tree.lower bindings options.curry 0).1.doc.chars options.indentWidth 0 true :=
  (Doc.put_eq _ _).1

/-- The text of a program before the value that it returns. -/
def Script.programHead (width : Nat) : List Char :=
  (.line ("(function (" ++ globalsName ++ ") \x7b") ++
    .nest (.line "\"use strict\";" ++ libraryDoc ++ .text "return ") : Doc).chars width 0 true

/-- The text of a program after the value that it returns. -/
def Script.programTail : List Char := ";\n\x7d)\n".toList

/-- A program is a function that returns the value of its tree. -/
theorem Script.chars_program_eq (expr : Expr) (width : Nat) :
    (programDoc expr).chars width 0 true =
      programHead width ++ (expr.doc.chars width 1 false ++
        (Doc.line ";").chars width 1 (expr.doc.freshAfter false)) ++ "\x7d)\n".toList := by
  let opener := (Doc.line ("(function (" ++ globalsName ++ ") \x7b")).chars width 0 true
  let setup := (Doc.line "\"use strict\";" ++ libraryDoc).chars width 1 true
  let start := (Doc.text "return ").chars width 1
    ((Doc.line "\"use strict\";" ++ libraryDoc).freshAfter true)
  have hhead : programHead width = opener ++ (setup ++ start) := rfl
  have hclose : (Doc.line "\x7d)").chars width 0 true = "\x7d)\n".toList := by
    show (List.replicate (0 * width) ' ' ++ _) ++ _ = _
    rw [Nat.zero_mul]
    rfl
  have hprogram : (programDoc expr).chars width 0 true =
      opener ++ (setup ++ (start ++ expr.doc.chars width 1 false ++
        (Doc.line ";").chars width 1 (expr.doc.freshAfter false))) ++
        (Doc.line "\x7d)").chars width 0 true := rfl
  rw [hprogram, hhead, hclose]
  simp only [List.append_assoc]

/-- The code in a program is that of its tree. There may be blanks before the semicolon. -/
theorem Script.chars_program (expr : Expr) (width : Nat) :
    ∃ count, (programDoc expr).chars width 0 true =
      programHead width ++ (expr.doc.chars width 1 false ++ List.replicate count ' ') ++
        programTail := by
  have hsemicolon (fresh : Bool) : ∃ count, (Doc.line ";").chars width 1 fresh =
      List.replicate count ' ' ++ [';', '\n'] := by
    cases fresh with
    | false => exact ⟨0, rfl⟩
    | true => exact ⟨1 * width, List.append_assoc ..⟩
  obtain ⟨count, hcount⟩ := hsemicolon (expr.doc.freshAfter false)
  have htail : programTail = [';', '\n'] ++ "\x7d)\n".toList := rfl
  refine ⟨count, ?_⟩
  rw [chars_program_eq, hcount, htail]
  simp only [List.append_assoc]

/-- The text of a source is well-formed, and it keeps the structure of the program: the reader reads
the whole of it, as the image of the tree. -/
theorem Tree.generate_reads_image (source : String) (options : Options) :
    let tree := Tree.parse (Token.read source options.fileName)
    let bindings := tree.resolve options.globals
    let image := (tree.image bindings options.curry 0).1.erase
    ∃ tokens, JavaScript.tokens? (tree.generate bindings options) = some tokens ∧
      JavaScript.Derives (.expression 1 image) tokens ∧
      JavaScript.read? (tree.generate bindings options) = some image := by
  intro tree bindings image
  obtain ⟨tokens, hscans, hderives⟩ := tree.lower_prints bindings options.curry
    (Tree.unsigned_parse source options.fileName) 0
  have hcode : image = (tree.lower bindings options.curry 0).1.code :=
    (Tree.image_agrees bindings options.curry tree 0).1
  have htext := hscans options.indentWidth 0 true
  rw [← tree.to_list_generate bindings options] at htext
  rw [← hcode] at hderives
  obtain ⟨htokens, hread⟩ := JavaScript.read_of_scans htext hderives
  exact ⟨tokens, htokens, hderives.lower (by decide), hread⟩

/-- The text of a whole program is that of a function around code that is read as the image of the
tree. -/
theorem Tree.read_program (source : String) (options : Options) :
    let tree := Tree.parse (Token.read source options.fileName)
    let bindings := tree.resolve options.globals
    ∃ text : String,
      JavaScript.read? text = some (tree.image bindings options.curry 0).1.erase ∧
      (tree.generateProgram bindings options).toList =
        programHead options.indentWidth ++ text.toList ++ programTail := by
  intro tree bindings
  let script := (tree.lower bindings options.curry 0).1
  obtain ⟨tokens, hscans, hderives⟩ := tree.lower_prints bindings options.curry
    (Tree.unsigned_parse source options.fileName) 0
  obtain ⟨count, hcount⟩ := chars_program script options.indentWidth
  have hprogram : (tree.generateProgram bindings options).toList =
      (programDoc script).chars options.indentWidth 0 true := (Doc.put_eq _ _).1
  have hvalue := (hscans options.indentWidth 1 false).append (.blanks .ended count)
  rw [List.append_nil] at hvalue
  refine ⟨String.ofList (script.doc.chars options.indentWidth 1 false ++ .replicate count ' '),
    ?_, ?_⟩
  · rw [(Tree.image_agrees bindings options.curry tree 0).1]
    exact (JavaScript.read_of_scans (by rwa [String.toList_ofList]) hderives).2
  · rw [hprogram, hcount, String.toList_ofList]

/-- The names in a program are not captured. The code of a tree is its image, and a whole program is
a function around it. The parameters of each function of the image are distinct, and each name of it
refers to what it was made for: that of an identifier to the parameter that declares it, the
variable of the let that declares it, or the object with the host's names, and all others to the
support library or to nothing in the program. A parameter is known by its index, since the
declarations of a function are distinct. -/
theorem Tree.generated_names_refer (tokens : Array Token) (options : Options) :
    let tree := Tree.parse tokens
    let bindings := tree.resolve options.globals
    let image := (tree.image bindings options.curry 0).1
    image.erase = (tree.lower bindings options.curry 0).1.code ∧
    (∀ source, tokens = Token.read source options.fileName →
      ∃ text : String, JavaScript.read? text = some image.erase ∧
        (tree.generateProgram bindings options).toList =
          programHead options.indentWidth ++ text.toList ++ programTail) ∧
    (∀ function ∈ image.functions, function.params.Nodup) ∧
    (∀ occurrence ∈ image.occurrences [programFrame], Refers tree bindings occurrence) ∧
    ∀ id fnToken params arrow body, tree.Has (.tree (.function id fnToken params arrow body)) →
      ((params.filterMap Param.declared?).map (·.1)).Nodup := by
  intro tree bindings image
  obtain ⟨hrefers, hparams⟩ := Tree.sound_image_parse tokens options.globals options.curry
  refine ⟨(Tree.image_agrees bindings options.curry tree 0).1, ?_, hparams, hrefers, ?_⟩
  · rintro source rfl
    exact Tree.read_program source options
  · rintro id fnToken params arrow body ⟨depth, hnode⟩
    exact Tree.parse_params_nodup hnode

end LetScript
