import Mathlib.Data.List.Induction
import StraightLine.Bench

/-!
# Tools after any work

A tool answers as the function it computes, whatever it has kept from earlier
work. So the answers of a bench do not depend on what was done on it, and the
values and slots it still knows are those of the last run and of the last
translation.
-/

namespace StraightLine

namespace Analyzer

open Lexeme

variable (analyzer : Analyzer)

theorem visible_pass (kept : List Lexeme) (token : Lexeme) (rest : List Lexeme) :
    (analyzer.pass kept token).1.reverse ++ visible (analyzer.pass kept token).2.inComment rest =
      kept.reverse ++ visible analyzer.inComment (token :: rest) := by
  cases hkind : token.kind with
  | openComment | closeComment | whiteSpace => simp only [pass, visible, hkind]
  | _ =>
    simp only [pass, visible, hkind]
    cases analyzer.inComment with
    | true => simp only [if_true]
    | false =>
      simp only [Bool.false_eq_true, if_false, List.reverse_cons, List.append_assoc,
        List.singleton_append]

/-- The lexemes of the rest come behind those kept so far. -/
theorem scan_eq (offset : Nat) (kept : List Lexeme) (source : List Char) :
    (analyzer.scan offset kept source).1 =
      (tokens analyzer.mode offset source).map
        (kept.reverse ++ visible analyzer.inComment ·) := by
  fun_induction scan analyzer offset kept source with
  | case1 analyzer offset kept => simp [tokens, visible, Except.map]
  | case2 analyzer offset kept c cs hcarve => simp [tokens, hcarve, Except.map]
  | case3 analyzer offset kept c cs carving hcarve text stop more next hpass ih =>
    rw [ih]
    have hmode : next.mode = analyzer.mode := by
      rw [← mode_pass analyzer kept ⟨String.ofList text, carving.kind, ⟨offset, stop⟩⟩, hpass]
    rw [hmode, tokens_cons hcarve]
    cases tokens analyzer.mode stop (carving.rest (c :: cs)) with
    | error fault => rfl
    | ok found =>
      have hpassed := visible_pass analyzer kept ⟨String.ofList text, carving.kind, ⟨offset, stop⟩⟩
        found
      rw [hpass] at hpassed
      exact congrArg Except.ok hpassed

theorem analyze_eq (source : String) :
    (analyzer.analyze source).1 = Lexeme.analyze analyzer.mode source := by
  rw [analyze, scan_eq, Lexeme.analyze]
  rfl

end Analyzer

namespace Runner

theorem steps_eq (runner : Runner) (output : String) (statements : List Statement) :
    runner.steps output statements =
      (output ++ String.join ((Statement.run runner.store statements).2.map
          fun value => Decimal.ofValue value ++ "\n"),
        ⟨(Statement.run runner.store statements).1⟩) := by
  induction statements generalizing runner output with
  | nil => simp [steps, Statement.run]
  | cons statement rest ih =>
    cases statement with
    | assignment target expression => simp [steps, step, Statement.run, ih]
    | output expression => simp [steps, step, Statement.run, ih, String.append_assoc]

theorem run_eq (runner : Runner) (program : Program) :
    runner.run program = (program.output, ⟨program.finalStore⟩) := by
  rw [run, steps_eq, String.empty_append]
  rfl

end Runner

namespace Translator

open Assembly

theorem foldl_statement (translator : Translator) (statements : List Statement) :
    statements.foldl statement translator =
      ⟨translator.output ++ listing (compile translator.slots statements).2,
        (compile translator.slots statements).1⟩ := by
  induction statements generalizing translator with
  | nil => simp [compile, listing]
  | cons first rest ih =>
    rw [List.foldl_cons, ih]
    cases first with
    | assignment target expression =>
      simp [statement, write, compile, String.append_assoc]
    | output expression =>
      simp [statement, write, compile, String.append_assoc]

theorem translate_eq (translator : Translator) (program : Program) :
    translator.translate program = (program.assembly, ⟨"", program.slots⟩) := by
  simp only [translate, foldl_statement, write]
  simp [Program.assembly, Program.lines, Program.slots, String.append_assoc]

end Translator

namespace TreeWriter

/-- The action writes the lines, counted from the indentation it meets, and leaves it as it was. -/
def Writes (action : TreeWriter → TreeWriter) (lines : List Tree.Line) : Prop :=
  ∀ writer : TreeWriter, action writer =
    { writer with
      output := writer.output ++
        String.join (lines.map fun line => Tree.render (writer.indent + line.1, line.2)) }

namespace Writes

theorem line (text : String) : Writes (fun writer => writer.line text) (Tree.token text) := by
  intro writer
  simp [TreeWriter.line, Tree.token]

theorem append {first second : TreeWriter → TreeWriter} {front back : List Tree.Line}
    (hfirst : Writes first front) (hsecond : Writes second back) :
    Writes (fun writer => second (first writer)) (front ++ back) := by
  intro writer
  change second (first writer) = _
  rw [hfirst writer, hsecond]
  simp [String.append_assoc]

theorem nested {body : TreeWriter → TreeWriter} {parts : List Tree.Line} (label : String)
    (hbody : Writes body parts) : Writes (nested label body) (Tree.node label parts) := by
  intro writer
  simp [TreeWriter.nested, hbody _, TreeWriter.line, Tree.node, Function.comp_def,
    String.append_assoc, Nat.add_assoc, Nat.add_comm 1]

theorem expression (written : Expression) :
    Writes (expression written) (Tree.ofExpression written) := by
  cases written with
  | identifier name => exact ((line name).nested "<identifier>").nested "<expression>"
  | number literal => exact ((line literal).nested "<number>").nested "<expression>"

theorem statement (written : Statement) :
    Writes (fun writer => writer.statement written) (Tree.ofStatement written) := by
  cases written with
  | assignment target value =>
    exact (((line target).append (line "=")).append (expression value)).nested _
  | output value =>
    exact ((((line "print").append (line "(")).append (expression value)).append
      (line ")")).nested _

theorem statements (written : List Statement) :
    Writes (fun writer => written.foldl TreeWriter.statement writer)
      (written.flatMap Tree.ofStatement) := by
  induction written with
  | nil => intro writer; simp
  | cons first rest ih => exact (statement first).append ih

theorem program (written : Program) :
    Writes (TreeWriter.nested "<program>" fun inside =>
        (written.statements.foldl TreeWriter.statement (inside.line "start")).line "end")
      (Tree.ofProgram written) :=
  (((line "start").append (statements written.statements)).append (line "end")).nested _

end Writes

theorem print_eq (writer : TreeWriter) (program : Program) :
    writer.print program = (program.tree, ⟨"", 0⟩) := by
  simp only [print, Writes.program program _]
  simp [Program.tree]

end TreeWriter

namespace Bench

@[simp] theorem after_append_singleton (bench : Bench) (done : List Request) (request : Request) :
    bench.after (done ++ [request]) = ((bench.after done).handle request).2 := by
  simp [after]

/-- No work changes how the analyzer reads. -/
theorem mode_handle (bench : Bench) (request : Request) :
    (bench.handle request).2.analyzer.mode = bench.analyzer.mode := by
  cases request with
  | analyze source => exact bench.analyzer.mode_analyze source
  | _ => rfl

theorem mode_after (bench : Bench) (done : List Request) :
    (bench.after done).analyzer.mode = bench.analyzer.mode := by
  induction done using List.reverseRecOn with
  | nil => rfl
  | append_singleton done request ih => rw [after_append_singleton, mode_handle, ih]

def Request.isRun : Request → Bool
  | .interpret _ => true
  | _ => false

def Request.isTranslation : Request → Bool
  | .compile _ => true
  | _ => false

/-- The last request of a sort alone, if there is one. -/
def lastOf (sort : Request → Bool) (done : List Request) : List Request :=
  (done.filter sort).getLast?.toList

theorem lastOf_append_singleton (sort : Request → Bool) (done : List Request) (request : Request) :
    lastOf sort (done ++ [request]) = if sort request then [request] else lastOf sort done := by
  by_cases h : sort request <;> simp [lastOf, List.filter_append, h]

/-- What the requests of a sort set afresh, and no other request changes, is as the last request of
the sort alone would have left it. -/
theorem view_after {α : Type} (view : Bench → α) (sort : Request → Bool)
    (hset : ∀ (one other : Bench) (request : Request), sort request →
      view (one.handle request).2 = view (other.handle request).2)
    (hkeep : ∀ (bench : Bench) (request : Request), sort request = false →
      view (bench.handle request).2 = view bench)
    (bench : Bench) (done : List Request) :
    view (bench.after done) = view (bench.after (lastOf sort done)) := by
  -- Along the history from its end: the last request has set the view or left it alone.
  induction done using List.reverseRecOn with
  | nil => rfl
  | append_singleton done request ih =>
    rw [after_append_singleton, lastOf_append_singleton]
    by_cases h : sort request
    · rw [if_pos h]
      exact hset _ _ _ h
    · rw [if_neg h, hkeep _ _ (Bool.not_eq_true _ ▸ h)]
      exact ih

theorem store_after (bench : Bench) (done : List Request) :
    (bench.after done).runner.store = (bench.after (lastOf Request.isRun done)).runner.store := by
  refine view_after (·.runner.store) Request.isRun (fun one other request h => ?_)
    (fun bench request h => ?_) bench done
  · cases request with
    | interpret program => simp only [handle, Runner.run_eq]
    | _ => cases h
  · cases request with
    | interpret program => cases h
    | _ => rfl

theorem slots_after (bench : Bench) (done : List Request) :
    (bench.after done).translator.slots =
      (bench.after (lastOf Request.isTranslation done)).translator.slots := by
  refine view_after (·.translator.slots) Request.isTranslation (fun one other request h => ?_)
    (fun bench request h => ?_) bench done
  · cases request with
    | compile program => simp only [handle, Translator.translate_eq]
    | _ => cases h
  · cases request with
    | compile program => cases h
    | _ => rfl

/-- Whatever was done on a bench before, each piece of work has the outcome it has on a fresh one,
and values and addresses are those after the last run and the last translation alone. -/
theorem answer_after (mode : Mode) (done : List Request) :
    (∀ source, (((fresh mode).after done).handle (.analyze source)).1 =
      ((fresh mode).handle (.analyze source)).1) ∧
    (∀ program, (((fresh mode).after done).handle (.interpret program)).1 =
      ((fresh mode).handle (.interpret program)).1) ∧
    (∀ program, (((fresh mode).after done).handle (.compile program)).1 =
      ((fresh mode).handle (.compile program)).1) ∧
    (∀ program, (((fresh mode).after done).handle (.tree program)).1 =
      ((fresh mode).handle (.tree program)).1) ∧
    (∀ name, (((fresh mode).after done).handle (.valueOf name)).1 =
      (((fresh mode).after (lastOf Request.isRun done)).handle (.valueOf name)).1) ∧
    ∀ name, (((fresh mode).after done).handle (.addressOf name)).1 =
      (((fresh mode).after (lastOf Request.isTranslation done)).handle (.addressOf name)).1 := by
  refine ⟨fun source => ?_, fun program => ?_, fun program => ?_, fun program => ?_,
    fun name => ?_, fun name => ?_⟩
  · simp only [handle, Analyzer.analyze_eq, mode_after]
  · simp only [handle, Runner.run_eq]
  · simp only [handle, Translator.translate_eq]
  · simp only [handle, TreeWriter.print_eq]
  · simp only [handle, store_after _ done]
  · simp only [handle, slots_after _ done]

end Bench

end StraightLine
