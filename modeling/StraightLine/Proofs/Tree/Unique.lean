import StraightLine.Proofs.Tree

/-!
# A tree view stands for one program

The label of a node tells how many lines the node has, so every line of a view
has its place in the program, whatever it says. A text may look like a label or
begin with blanks: as long as it stays on its line it is taken for nothing else.
-/

namespace StraightLine

namespace Tree

/-! ### Texts that stay on their lines -/

def Unbroken (lines : List Line) : Prop :=
  ∀ line ∈ lines, '\n' ∉ line.2.toList

theorem unbroken_node {label : String} {parts : List Line} (hlabel : '\n' ∉ label.toList)
    (hparts : Unbroken parts) : Unbroken (node label parts) := by
  refine List.forall_mem_cons.mpr ⟨hlabel, fun line hline => ?_⟩
  obtain ⟨part, hpart, rfl⟩ := List.mem_map.mp hline
  exact hparts part hpart

theorem unbroken_token {text : String} (h : '\n' ∉ text.toList) : Unbroken (token text) :=
  List.forall_mem_singleton.mpr h

theorem Unbroken.append {front back : List Line} (hfront : Unbroken front)
    (hback : Unbroken back) : Unbroken (front ++ back) :=
  List.forall_mem_append.mpr ⟨hfront, hback⟩

theorem unbroken_ofExpression {expression : Expression} (h : '\n' ∉ expression.source.toList) :
    Unbroken (ofExpression expression) := by
  cases expression with
  | identifier name =>
    exact unbroken_node (by decide) (unbroken_node (by decide) (unbroken_token h))
  | number literal =>
    exact unbroken_node (by decide) (unbroken_node (by decide) (unbroken_token h))

theorem unbroken_ofStatement {statement : Statement}
    (h : ∀ text ∈ statement.texts, '\n' ∉ text.toList) : Unbroken (ofStatement statement) := by
  cases statement with
  | assignment target expression =>
    rw [Statement.texts, List.forall_mem_cons, List.forall_mem_singleton] at h
    refine unbroken_node (by decide) (.append (.append (unbroken_token h.1) ?_) ?_)
    · exact unbroken_token (by decide)
    · exact unbroken_ofExpression h.2
  | output expression =>
    rw [Statement.texts, List.forall_mem_singleton] at h
    refine unbroken_node (by decide) (.append (.append (.append ?_ ?_) ?_) ?_)
    · exact unbroken_token (by decide)
    · exact unbroken_token (by decide)
    · exact unbroken_ofExpression h
    · exact unbroken_token (by decide)

theorem unbroken_ofProgram {program : Program} (h : program.Unbroken) :
    Unbroken (ofProgram program) := by
  refine unbroken_node (by decide) (.append (.append (unbroken_token (by decide)) ?_) ?_)
  · intro line hline
    obtain ⟨statement, hstatement, hmem⟩ := List.mem_flatMap.mp hline
    exact unbroken_ofStatement (h statement hstatement) line hmem
  · exact unbroken_token (by decide)

/-! ### Lines with their indentation -/

/-- The lines as they stand in a view. -/
def written (lines : List Line) : List String :=
  lines.map indented

theorem indented_zero (text : String) : indented (0, text) = text :=
  String.empty_append

theorem indented_succ (depth : Nat) (text : String) :
    indented (depth + 1, text) = "  " ++ indented (depth, text) := by
  rw [← String.toList_inj]
  simp [indented, Nat.mul_succ, Nat.add_comm _ 2, List.replicate_add]

@[simp] theorem written_append (front back : List Line) :
    written (front ++ back) = written front ++ written back :=
  List.map_append

@[simp] theorem written_token (text : String) : written (token text) = [text] :=
  congrArg (fun line => [line]) (indented_zero text)

@[simp] theorem written_node (label : String) (parts : List Line) :
    written (node label parts) = label :: (written parts).map ("  " ++ ·) := by
  simp [written, node, Function.comp_def, indented_succ, indented_zero]

/-- Lines that are indented further stay different. -/
theorem further_injective : Function.Injective (List.map fun line : String => "  " ++ line) :=
  List.map_injective_iff.mpr fun _ _ h => (String.append_right_inj _).mp h

/-- A node is known from its front when the parts are as many. -/
theorem written_node_append_inj {label other : String} {parts others : List Line}
    {rest more : List String} (hlength : (written parts).length = (written others).length)
    (h : written (node label parts) ++ rest = written (node other others) ++ more) :
    label = other ∧ written parts = written others ∧ rest = more := by
  rw [written_node, written_node, List.cons_append, List.cons_append, List.cons.injEq] at h
  obtain ⟨hlabel, hrest⟩ := h
  obtain ⟨hparts, hmore⟩ := List.append_inj hrest (by simpa using hlength)
  exact ⟨hlabel, further_injective hparts, hmore⟩

/-! ### Programs from views -/

@[simp] theorem length_written_ofExpression (expression : Expression) :
    (written (ofExpression expression)).length = 3 := by
  cases expression <;> rfl

theorem written_ofExpression_inj {first second : Expression}
    (h : written (ofExpression first) = written (ofExpression second)) : first = second := by
  cases first with
  | identifier name =>
    cases second with
    | identifier other => simpa [ofExpression] using h
    | number literal => simp [ofExpression] at h
  | number literal =>
    cases second with
    | identifier name => simp [ofExpression] at h
    | number other => simpa [ofExpression] using h

/-- A statement is known from the front of the lines that begin with its own. -/
theorem written_ofStatement_append_inj {first second : Statement} {rest more : List String}
    (h : written (ofStatement first) ++ rest = written (ofStatement second) ++ more) :
    first = second ∧ rest = more := by
  cases first with
  | assignment target expression =>
    cases second with
    | assignment other value =>
      obtain ⟨-, hparts, hrest⟩ := written_node_append_inj (by simp) h
      simp only [written_append, written_token, List.append_assoc, List.cons_append,
        List.nil_append, List.cons.injEq, true_and] at hparts
      obtain ⟨htarget, hvalue⟩ := hparts
      exact ⟨congrArg₂ _ htarget (written_ofExpression_inj hvalue), hrest⟩
    | output value => simp [ofStatement] at h
  | output expression =>
    cases second with
    | assignment other value => simp [ofStatement] at h
    | output value =>
      obtain ⟨-, hparts, hrest⟩ := written_node_append_inj (by simp) h
      simp only [written_append] at hparts
      have hvalue := List.append_cancel_left (List.append_cancel_right hparts)
      exact ⟨congrArg _ (written_ofExpression_inj hvalue), hrest⟩

theorem written_flatMap_ofStatement_inj {first second : List Statement}
    (h : written (first.flatMap ofStatement) = written (second.flatMap ofStatement)) :
    first = second := by
  have hne : ∀ (statement : Statement) (rest : List String),
      written (ofStatement statement) ++ rest ≠ [] := by
    intro statement rest
    cases statement <;> simp [ofStatement]
  induction first generalizing second with
  | nil =>
    cases second with
    | nil => rfl
    | cons statement rest =>
      rw [List.flatMap_cons, written_append] at h
      exact (hne statement _ h.symm).elim
  | cons statement rest ih =>
    cases second with
    | nil =>
      rw [List.flatMap_cons, written_append] at h
      exact (hne statement _ h).elim
    | cons other more =>
      rw [List.flatMap_cons, List.flatMap_cons, written_append, written_append] at h
      obtain ⟨hstatement, hrest⟩ := written_ofStatement_append_inj h
      rw [hstatement, ih hrest]

theorem written_ofProgram_inj {first second : Program}
    (h : written (ofProgram first) = written (ofProgram second)) : first = second := by
  rw [ofProgram, ofProgram, written_node, written_node, List.cons.injEq] at h
  have hparts := further_injective h.2
  simp only [written_append] at hparts
  have hstatements := List.append_cancel_left (List.append_cancel_right hparts)
  exact congrArg Program.mk (written_flatMap_ofStatement_inj hstatements)

theorem lines_tree_eq_written {program : Program} (h : program.Unbroken) :
    (Text.lines program.tree.toList).map String.ofList = written (ofProgram program) := by
  rw [lines_tree (unbroken_ofProgram h), List.map_map]
  exact List.map_congr_left fun line _ => String.ofList_toList

end Tree

namespace Program

/-- Two programs whose texts stay on their lines have the same view only if they are the same
program, whatever the tree writers were used for before. -/
theorem print_eq_print_iff {first second : Program} (hfirst : first.Unbroken)
    (hsecond : second.Unbroken) (writer other : TreeWriter) :
    (writer.print first).1 = (other.print second).1 ↔ first = second := by
  rw [TreeWriter.print_eq, TreeWriter.print_eq]
  constructor
  · intro h
    apply Tree.written_ofProgram_inj
    rw [← Tree.lines_tree_eq_written hfirst, ← Tree.lines_tree_eq_written hsecond]
    exact congrArg (fun view : String => (Text.lines view.toList).map String.ofList) h
  · rintro rfl
    rfl

/-- Where a text stands decides what it is, not what it looks like. -/
theorem print_eq_print_iff_lookalike :
    Unbroken ⟨[.assignment "end" (.identifier "7"), .output (.identifier "  <number>")]⟩ ∧
    Unbroken ⟨[.assignment "end" (.number "7"), .output (.identifier "  <number>")]⟩ ∧
    ((TreeWriter.mk "start" 3).print
        ⟨[.assignment "end" (.identifier "7"), .output (.identifier "  <number>")]⟩).1 ≠
      (TreeWriter.fresh.print
        ⟨[.assignment "end" (.number "7"), .output (.identifier "  <number>")]⟩).1 := by
  have hfirst : Unbroken
      ⟨[.assignment "end" (.identifier "7"), .output (.identifier "  <number>")]⟩ := by
    unfold Unbroken
    decide
  have hsecond : Unbroken
      ⟨[.assignment "end" (.number "7"), .output (.identifier "  <number>")]⟩ := by
    unfold Unbroken
    decide
  exact ⟨hfirst, hsecond, mt (print_eq_print_iff hfirst hsecond ⟨"start", 3⟩ .fresh).mp (by decide)⟩

/-- A text that goes on behind a line feed can say what another statement says. -/
example :
    tree ⟨[.output (.number ("1\n    )\n  <output_statement>\n    print\n    (\n" ++
      "    <expression>\n      <number>\n        2"))]⟩ =
      tree ⟨[.output (.number "1"), .output (.number "2")]⟩ := by
  decide +kernel

end Program

end StraightLine
