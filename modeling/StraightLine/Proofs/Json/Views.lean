import StraightLine.Lexeme.Json
import StraightLine.Program.Json
import StraightLine.Proofs.Json
import StraightLine.Proofs.Lexeme.Tiling

/-!
# Lexemes and programs from their JSON

What a list of lexemes or a program is written as in JSON can be read back, be
the texts in it what they may. Only the spans have a limit: they are counted in
sixty-four bits, which is enough for every source that is no longer than that.
-/

namespace StraightLine

namespace Json

section Lists

variable {α : Type} {item? : Json → Option α} {write : α → Json} {all : List α}

theorem list?_map (h : ∀ a ∈ all, item? (write a) = some a) :
    list? item? (array (all.map write)) = some all := by
  rw [list?]
  induction all with
  | nil => rfl
  | cons a rest ih =>
    obtain ⟨ha, hrest⟩ := List.forall_mem_cons.mp h
    rw [List.map_cons, List.mapM_cons, ha, ih hrest]
    rfl

theorem whole_map (h : ∀ a, (write a).Whole) (all : List α) : (array (all.map write)).Whole := by
  refine .array fun item hitem => ?_
  obtain ⟨a, -, rfl⟩ := List.mem_map.mp hitem
  exact h a

end Lists

/-- An object with one member. -/
theorem whole_singleton {name : String} {value : Json} (h : value.Whole) :
    (object [(name, value)]).Whole :=
  .object (List.forall_mem_singleton.mpr h)

end Json

/-! ### Lexemes -/

/-- Both ends are counted in sixty-four bits. -/
structure Span.Counted (span : Span) : Prop where
  start_lt : span.start < UInt64.size
  stop_lt : span.stop < UInt64.size

theorem Span.ofJson?_toJson {span : Span} (h : span.Counted) :
    Span.ofJson? span.toJson = some span := by
  simp [ofJson?, toJson, Json.record?, Json.lookup, Json.natBelow?, h.start_lt, h.stop_lt]

theorem Span.whole_toJson (span : Span) : span.toJson.Whole :=
  .object (List.forall_mem_cons.mpr ⟨.nat _, List.forall_mem_singleton.mpr (.nat _)⟩)

namespace Lexeme

theorem ofJson?_toJson {lexeme : Lexeme} (h : lexeme.span.Counted) :
    ofJson? lexeme.toJson = some lexeme := by
  simp [ofJson?, toJson, Json.record?, Json.lookup, Json.string?, Kind.ofJson?_toJson,
    Span.ofJson?_toJson h]

theorem whole_toJson (lexeme : Lexeme) : lexeme.toJson.Whole := by
  refine .object fun member hmember => ?_
  simp only [List.mem_cons, List.not_mem_nil, or_false] at hmember
  obtain rfl | rfl | rfl := hmember
  · exact .string _
  · exact .string _
  · exact lexeme.span.whole_toJson

end Lexeme

/-! ### Programs -/

theorem Expression.whole_toJson (expression : Expression) : expression.toJson.Whole := by
  cases expression with
  | identifier name => exact Json.whole_singleton (.string name)
  | number literal => exact Json.whole_singleton (.string literal)

theorem Statement.whole_toJson (statement : Statement) : statement.toJson.Whole := by
  cases statement with
  | assignment target expression =>
    refine Json.whole_singleton (.object (List.forall_mem_cons.mpr ⟨.string target, ?_⟩))
    exact List.forall_mem_singleton.mpr expression.whole_toJson
  | output expression => exact Json.whole_singleton (Json.whole_singleton expression.whole_toJson)

namespace Program

theorem ofJson?_toJson (program : Program) : ofJson? program.toJson = some program := by
  have hstatements : Json.list? Statement.ofJson?
      (.array (program.statements.map Statement.toJson)) = some program.statements :=
    Json.list?_map fun statement _ => statement.ofJson?_toJson
  simp [ofJson?, toJson, Json.record?, Json.lookup, hstatements]

theorem whole_toJson (program : Program) : program.toJson.Whole :=
  Json.whole_singleton (Json.whole_map Statement.whole_toJson program.statements)

end Program

end StraightLine
