import LetScript.Proofs.Script.Literals
import LetScript.Proofs.Script.Program

/-!
# Generated code is indented as a whole

The code of a node may be written anywhere and ends in the middle of a line, and all of its lines
hold some text (`Node.lower_inline`). The only texts in it that come from a program are names, which
are mangled, and string literals, so none of them has a line end. So the code in a whole program is
the code of the node alone with one level of indentation (`Node.generate_program_reindents`).
-/

namespace LetScript

open Script

namespace Script

/-! ## Texts on one line -/

/-- A name of a variable is a piece of a line. -/
theorem IsName.is_piece {name : String} (h : IsName name) : Text.isPiece name := by
  obtain ⟨c, rest, hname, hstart, hrest⟩ := h.chars
  refine Text.is_piece_iff.2 ⟨?_, ?_⟩
  · rintro rfl
    cases hname
  · rw [hname]
    intro hmem
    rcases List.mem_cons.1 hmem with rfl | hmem
    · cases hstart
    · cases hrest _ hmem

/-- A name of a variable is on one line. -/
theorem IsName.one_line {name : String} (h : IsName name) : Text.isOneLine name :=
  Text.one_line_iff.2 (Text.is_piece_iff.1 h.is_piece).2

/-- A string literal is on one line. -/
theorem one_line_string_literal (text : String) : Text.isOneLine (stringLiteral text) := by
  refine Text.one_line_iff.2 fun hmem => ?_
  cases is_printed_string_literal hmem

/-- Names with commas between them are on one line. -/
theorem one_line_params {params : List String} (h : ∀ param ∈ params, IsName param) :
    Text.isOneLine (String.intercalate ", " params) := by
  induction params with
  | nil => rfl
  | cons first params ih =>
      obtain ⟨hfirst, hrest⟩ := List.forall_mem_cons.1 h
      cases params with
      | nil =>
          rw [String.intercalate_singleton]
          exact hfirst.one_line
      | cons second params =>
          rw [String.intercalate_cons_cons]
          exact Text.one_line_append (Text.one_line_append hfirst.one_line rfl) (ih hrest)

/-- The text of a property is a piece of a line. -/
theorem is_piece_property {object : String} (h : IsName object) (name : String) :
    Text.isPiece (propertyText object name) := by
  unfold propertyText
  split
  next hplain =>
    obtain ⟨c, rest, hname, hstart, hrest⟩ := exists_cons_of_plain hplain
    have hline : Text.isOneLine name := by
      refine Text.one_line_iff.2 fun hmem => ?_
      rw [hname] at hmem
      rcases List.mem_cons.1 hmem with rfl | hmem
      · cases hstart
      · cases hrest _ hmem
    exact Text.is_piece_append (Text.is_piece_append h.is_piece rfl) hline
  next =>
    exact Text.is_piece_append (Text.is_piece_append (Text.is_piece_append h.is_piece rfl)
      (one_line_string_literal name)) rfl

/-- A statement that throws an error is a piece of a line. -/
theorem is_piece_throw_statement (message : String) : Text.isPiece (throwStatement message) :=
  Text.is_piece_append (Text.is_piece_append rfl (one_line_string_literal message)) rfl

/-- The text of a number is a piece of a line. -/
theorem is_piece_number (value : Binary64) : Text.isPiece (numberText value) := by
  unfold numberText
  split
  next => rfl
  next hinfinite =>
    by_cases hundefined : Binary64.infinity < value.magnitude
    · rw [Binary64.toText, if_pos hundefined]
      rfl
    · have hne : value.magnitude ≠ Binary64.infinity := by
        simpa [Binary64.isInfinite] using hinfinite
      obtain ⟨whole, fraction, htext, hwhole, hfraction, -⟩ :=
        Binary64.to_text_written (Nat.lt_of_le_of_ne (Nat.le_of_not_lt hundefined) hne)
      have hwholeLine : '\n' ∉ whole := fun hmem => by cases hwhole.1 _ hmem
      have hfractionLine : '\n' ∉ fraction := fun hmem => by cases hfraction _ hmem
      obtain ⟨c, rest, hcons, -⟩ := hwhole.exists_cons
      have hwritten : Numeral.written whole fraction ≠ [] ∧
          '\n' ∉ Numeral.written whole fraction := by
        have hne : whole ≠ [] := hcons ▸ List.cons_ne_nil c rest
        unfold Numeral.written
        split <;> simp [hne, hwholeLine, hfractionLine]
      refine Text.is_piece_iff.2 ⟨fun hempty => ?_, ?_⟩
      · rw [hempty] at htext
        exact hwritten.1 (List.append_eq_nil_iff.1 htext.symm).2
      · rw [htext]
        refine List.not_mem_append ?_ hwritten.2
        split <;> simp

/-! ## Documents -/

variable {doc doc' : Doc}

/-- An expression that throws an error. -/
theorem inline_failure (message : String) : (Doc.text (failureText message)).Inline := by
  have hline := (Text.is_piece_iff.1 (is_piece_throw_statement message)).2
  exact .text (Text.is_piece_append (Text.is_piece_append rfl (Text.one_line_iff.2 hline)) rfl)

/-- A piece of text and the end of its line. -/
theorem fills_line {piece : String} (h : Text.isPiece piece) (fresh : Bool) :
    Doc.Fills fresh (.line piece) true :=
  .append (.text h) .newline

/-- Statements that throw errors, a line for each. -/
theorem fills_failure_lines (failures : List String) :
    Doc.Fills true (failureLines failures) true := by
  induction failures with
  | nil => exact .nothing
  | cons message failures ih => exact .append (fills_line (is_piece_throw_statement message) _) ih

/-- The statement that returns a value. -/
theorem fills_return_line (h : doc.Inline) (fresh : Bool) :
    Doc.Fills fresh (returnLine doc) true :=
  .append (.append (.text rfl) (h false)) (fills_line rfl false)

/-- A value that is returned after some errors. -/
theorem fills_returned (failures : List String) (h : doc.Inline) :
    Doc.Fills true (failureLines failures ++ returnLine doc) true :=
  .append (fills_failure_lines failures) (fills_return_line h true)

/-- A function that is called at once. -/
theorem inline_invoked (h : Doc.Fills true doc true) : (invoked doc).Inline :=
  fun fresh => .append (.append (fills_line rfl fresh) (.nest h)) (.text rfl)

/-- A function with parameters, also as the argument of the support library. -/
theorem inline_function {params : List String} (hparams : ∀ param ∈ params, IsName param)
    (curried : Bool) (failures : List String) (h : doc.Inline) :
    (functionDoc curried params failures doc).Inline := by
  have hheader : Text.isPiece ("function (" ++ String.intercalate ", " params ++ ") \x7b") :=
    Text.is_piece_append (Text.is_piece_append rfl (one_line_params hparams)) rfl
  have hfunction (fresh : Bool) : Doc.Fills fresh
      (.line ("function (" ++ String.intercalate ", " params ++ ") \x7b") ++
        .nest (failureLines failures ++ returnLine doc) ++ .text "\x7d") false :=
    .append (.append (fills_line hheader fresh) (.nest (fills_returned failures h))) (.text rfl)
  have harity : Text.isPiece (libraryName ++ ".curry(" ++ params.length.repr ++ ", ") :=
    Text.is_piece_append (Text.is_piece_append rfl (Text.one_line_repr params.length)) rfl
  intro fresh
  cases curried with
  | false => exact hfunction fresh
  | true => exact .append (.append (.text harity) (hfunction false)) (.text rfl)

/-- A record of definitions. -/
theorem inline_record (isEmpty : Bool) (h : Doc.Fills true doc true) :
    (recordDoc isEmpty doc).Inline := by
  intro fresh
  cases isEmpty with
  | false => exact .append (.append (fills_line rfl fresh) (.nest h)) (.text rfl)
  | true => exact .text rfl

/-- The lines of a definition of a record. -/
theorem fills_entry (name : String) (h : doc.Inline) (isLast : Bool) :
    Doc.Fills true (entryDoc name doc isLast) true := by
  have hheader : Text.isPiece ("[" ++ stringLiteral name ++ ", function () \x7b") :=
    Text.is_piece_append (Text.is_piece_append rfl (one_line_string_literal name)) rfl
  have hclose : Text.isPiece (if isLast then "\x7d]" else "\x7d],") := by cases isLast <;> rfl
  exact .append (.append (fills_line hheader true) (.nest (fills_return_line h true)))
    (fills_line hclose true)

/-- A body in which a variable holds a record of definitions. -/
theorem inline_scoped {name : String} (hname : IsName name) {record : Doc} (hrecord : record.Inline)
    (failures : List String) (h : doc.Inline) :
    (invoked (.text ("var " ++ name ++ " = ") ++ record ++ .line ";" ++ failureLines failures ++
      returnLine doc)).Inline := by
  have hheader : Text.isPiece ("var " ++ name ++ " = ") :=
    Text.is_piece_append (Text.is_piece_append rfl hname.one_line) rfl
  have hdeclares : Doc.Fills true (.text ("var " ++ name ++ " = ") ++ record ++ .line ";") true :=
    .append (.append (.text hheader) (hrecord false)) (fills_line rfl false)
  exact inline_invoked (.append (.append hdeclares (fills_failure_lines failures))
    (fills_return_line h true))

/-- The declaration of the support library. -/
theorem fills_library : Doc.Fills true libraryDoc true := by
  have hclosing (lines : List String) (h : ∀ line ∈ lines, Text.isPiece line) :
      Doc.Fills true (libraryDoc.closing lines) true := by
    fun_induction libraryDoc.closing lines with
    | case1 => exact .nothing
    | case2 last =>
        have hlast := List.forall_mem_singleton.1 h
        exact fills_line (Text.is_piece_append hlast rfl) true
    | case3 line lines _ ih =>
        obtain ⟨hline, hlines⟩ := List.forall_mem_cons.1 h
        exact .append (fills_line hline true) (ih hlines)
  have hlines : ∀ line ∈ libraryLines.tail, Text.isPiece line :=
    List.all_eq_true.1 (by decide +kernel)
  exact .append (fills_line rfl true) (hclosing _ hlines)

/-- A whole program. -/
theorem fills_program {expr : Expr} (h : expr.doc.Inline) : Doc.Fills true (programDoc expr) true :=
  .append (.append (fills_line rfl true) (.nest (.append (.append (fills_line rfl true)
    fills_library) (fills_return_line h true)))) (fills_line rfl true)

end Script

/-! ## Trees -/

section Lower

variable (bindings : Bindings) (curry : Bool)

/-- The code of an identifier. -/
theorem inline_identifier (id : NodeId) (name : String) :
    (lowerIdentifier bindings id name).doc.Inline := by
  unfold lowerIdentifier
  split
  · split
    · exact .text (is_name_mangle name).is_piece
    · exact .text (is_piece_property (is_name_scope_variable _) name)
    · exact .text (is_piece_property ⟨⟨'$', _, rfl, rfl, List.all_eq_true.1 rfl⟩, rfl⟩ name)
  · exact inline_failure _
  · exact inline_failure _

mutual

/-- The code of a tree may be written anywhere and ends in the middle of a line. -/
theorem Tree.lower_inline (tree : Tree) :
    (tree.lower bindings curry).Yields fun script => script.doc.Inline := by
  cases tree with
  | identifier id token =>
      rw [Tree.lower]
      exact .pure (inline_identifier bindings id token.value)
  | literal id token value =>
      rw [Tree.lower]
      exact .pure (.text (is_piece_number value))
  | placeholder id token =>
      rw [Tree.lower]
      exact .pure (inline_failure _)
  | fault f =>
      rw [Tree.lower]
      exact .pure (inline_failure _)
  | paren id opener inner closer =>
      rw [Tree.lower]
      exact inner.lower_inline
  | letIn id letToken items inToken body =>
      rw [Tree.lower]
      exact (Item.lower_list_fills items).bind fun entries hentries =>
        body.lower_inline.bind fun script hscript => .pure <|
          inline_scoped (is_name_record_variable bindings id) (inline_record _ hentries) _ hscript
  | function id fnToken params arrow body =>
      let names := paramNames ((params.filterMap Param.declared?).map (·.2))
      have hnames : names.Yields fun chosen => ∀ param ∈ chosen, IsName param :=
        fun n param hparam => is_name_of_mem_param_names hparam
      rw [Tree.lower]
      exact hnames.bind fun chosen hchosen => body.lower_inline.bind fun script hscript =>
        .pure (inline_function hchosen curry _ hscript)
  | record id opener items closer =>
      rw [Tree.lower]
      refine (Item.lower_list_fills items).bind fun entries hentries => ?_
      cases (items.filterMap Item.fault?).map faultMessage with
      | nil => exact .pure (inline_record _ hentries)
      | cons message failures =>
          exact .pure (inline_invoked (fills_returned _ (inline_record _ hentries)))
  | unary id operator operand =>
      rw [Tree.lower]
      cases unaryOperator? operator.kind with
      | none => exact .pure (inline_failure _)
      | some sign =>
          have hsign : Text.isPiece ("(" ++ sign.symbol) := by cases sign <;> rfl
          exact operand.lower_inline.bind fun script hscript => .pure fun fresh =>
            .append (.append (.text hsign) (hscript false)) (.text rfl)
  | binary id left operator right =>
      rw [Tree.lower]
      cases binaryOperator? operator.kind with
      | none => exact .pure (inline_failure _)
      | some sign =>
          have hsign : Text.isPiece (" " ++ sign.symbol ++ " ") := by cases sign <;> rfl
          exact left.lower_inline.bind fun script hscript =>
            right.lower_inline.bind fun script' hscript' => .pure fun fresh =>
              .append (.append (.append (.append (.text rfl) (hscript false)) (.text hsign))
                (hscript' false)) (.text rfl)
  | apply id callee argument =>
      rw [Tree.lower]
      refine callee.lower_inline.bind fun script hscript =>
        argument.lower_inline.bind fun script' hscript' => .pure fun fresh => ?_
      have hparen : (Doc.text "(" ++ script.doc ++ .text ")").Inline := fun fresh =>
        .append (.append (.text rfl) (hscript false)) (.text rfl)
      split
      · exact .append (.append (.append (hscript fresh) (.text rfl)) (hscript' false)) (.text rfl)
      · exact .append (.append (.append (hparen fresh) (.text rfl)) (hscript' false)) (.text rfl)

/-- The lines of the definitions of a list hold some text. -/
theorem Item.lower_list_fills (items : List Item) :
    (Item.lowerList bindings curry items).Yields fun entries =>
      Doc.Fills true (Entry.listDoc entries) true := by
  cases items with
  | nil =>
      rw [Item.lowerList]
      exact .pure .nothing
  | cons item items =>
      cases item with
      | fault f =>
          rw [Item.lowerList]
          exact Item.lower_list_fills items
      | definition id name equals value =>
          rw [Item.lowerList]
          exact value.lower_inline.bind fun script hscript =>
            (Item.lower_list_fills items).bind fun entries hentries =>
              .pure (.append (fills_entry _ hscript _) hentries)

end

/-- The code of a node may be written anywhere and ends in the middle of a line. -/
theorem Node.lower_inline (node : Node) :
    (node.lower bindings curry).Yields fun script => script.doc.Inline := by
  cases node with
  | tree tree => exact tree.lower_inline bindings curry
  | binding | field => exact .pure (inline_failure _)

end Lower

/-! ## Programs -/

/-- The code of a node is appended to the output, with no empty line, and leaves the level as it
was. -/
theorem Generator.append_frame (generator : Generator) (node : Node) (bindings : Bindings)
    (options : Options) :
    let after := generator.append bindings options node Expr.doc
    after.writer.level = generator.writer.level ∧
      ∃ text, after.writer.output.toList = generator.writer.output.toList ++ text ∧
        [] ∉ text.splitOn '\n' := by
  have hinline := node.lower_inline bindings options.curry generator.unused
  unfold Generator.append
  exact ⟨Writer.level_put _ _, _, (Doc.put_eq _ _).1, hinline.nil_not_mem_split_on _ _ _⟩

/-- The code of a node in the middle of a line, after some output. -/
theorem Generator.append_inline (node : Node) (bindings : Bindings) (options : Options)
    (width level unused : Nat) (output : String) :
    let script := node.lower bindings options.curry unused
    (Generator.mk ⟨width, level, false, output⟩ unused).append bindings options node Expr.doc =
      ⟨⟨width, level, false, output ++ String.ofList (script.1.doc.chars width level false)⟩,
        script.2⟩ := by
  intro script
  have hput := (node.lower_inline bindings options.curry unused).put_eq_append width level output
  exact congrArg (Generator.mk · script.2) hput

/-- The code of a node alone. -/
theorem Node.to_list_generate (node : Node) (bindings : Bindings) (options : Options) :
    (node.generate bindings options).toList =
      (node.lower bindings options.curry 0).1.doc.chars options.indentWidth 0 false := by
  have hinline := node.lower_inline bindings options.curry 0
  rw [← hinline.chars_level_zero]
  exact (Doc.put_eq _ _).1

/-- The code of a node in a whole program. -/
theorem Node.to_list_generate_program (node : Node) (bindings : Bindings) (options : Options) :
    (node.generateProgram bindings options).toList =
      programHead options.indentWidth ++
        (node.lower bindings options.curry 0).1.doc.chars options.indentWidth 1 false ++
        programTail := by
  have hinline := node.lower_inline bindings options.curry 0
  have hprogram : (node.generateProgram bindings options).toList =
      (programDoc (node.lower bindings options.curry 0).1).chars options.indentWidth 0 true :=
    (Doc.put_eq _ _).1
  rw [hprogram, chars_program_eq, (hinline false).fresh_after_eq]
  simp only [List.append_assoc]
  rfl

/-- Generated code is indented as a whole. A program is written by calls of a writer, and no text
that is passed to it has a line end. The code of a node leaves the level as it was and has no empty
line. Started in the middle of a line, it ends in the middle of a line and appends what it would
append at level zero, with the blanks of its level after each line end. So a whole program is the
code of the node alone with the blanks of one level after each line end, between a head that depends
on nothing but the width of a level and a fixed tail. -/
theorem Node.generate_program_reindents (node : Node) (bindings : Bindings) (options : Options) :
    (∀ unused,
      let script := (node.lower bindings options.curry unused).1
      ∀ document ∈ [script.doc, programDoc script],
        (∀ writer : Writer, writer.put document = document.calls.foldl Writer.perform writer) ∧
          ∀ text, .write text ∈ document.calls → '\n' ∉ text.toList) ∧
      (∀ generator : Generator,
        let after := generator.append bindings options node Expr.doc
        after.writer.level = generator.writer.level ∧
          ∃ text, after.writer.output.toList = generator.writer.output.toList ++ text ∧
            [] ∉ text.splitOn '\n') ∧
      (∀ width level unused output,
        let alone :=
          (Generator.mk ⟨width, 0, false, ""⟩ unused).append bindings options node Expr.doc
        let text := Text.reindent (level * width) alone.writer.output.toList
        (Generator.mk ⟨width, level, false, output⟩ unused).append bindings options node Expr.doc =
          ⟨⟨width, level, false, output ++ String.ofList text⟩, alone.unused⟩) ∧
      (node.generateProgram bindings options).toList =
        programHead options.indentWidth ++
          Text.reindent options.indentWidth (node.generate bindings options).toList ++
          ";\n\x7d)\n".toList := by
  refine ⟨fun unused => ?_, fun generator => generator.append_frame .., ?_, ?_⟩
  · intro script document hdocument
    have hinline := node.lower_inline bindings options.curry unused
    refine ⟨document.put_eq_foldl, fun text => ?_⟩
    rcases List.mem_cons.1 hdocument with rfl | hdocument
    · exact (hinline true).not_mem_of_write
    · obtain rfl := List.mem_singleton.1 hdocument
      exact (fills_program hinline).not_mem_of_write
  · intro width level unused output alone text
    let doc := (node.lower bindings options.curry unused).1.doc
    have hinline : doc.Inline := node.lower_inline bindings options.curry unused
    have halone := Generator.append_inline node bindings options width 0 unused ""
    have htext : text = doc.chars width level false := by
      rw [hinline.chars_eq_reindent]
      show Text.reindent _ alone.writer.output.toList = _
      rw [show alone = _ from halone, String.empty_append, String.toList_ofList]
    rw [htext, Generator.append_inline, show alone = _ from halone]
  · have hinline := node.lower_inline bindings options.curry 0
    rw [node.to_list_generate_program, node.to_list_generate, hinline.chars_eq_reindent,
      Nat.one_mul]
    rfl

end LetScript
