import StraightLine.Json
import StraightLine.Program

/-!
# Programs as JSON

A statement or an expression is a variant: an object whose only member is
named for the variant.
-/

namespace StraightLine

namespace Expression

def toJson : Expression → Json
  | identifier name => .object [("Identifier", .string name)]
  | number literal => .object [("Number", .string literal)]

def ofJson? (json : Json) : Option Expression := do
  let (tag, content) ← json.variant?
  let text ← content.string?
  if tag = "Identifier" then some (identifier text)
  else if tag = "Number" then some (number text)
  else none

theorem ofJson?_toJson (expression : Expression) : ofJson? expression.toJson = some expression := by
  cases expression <;> rfl

end Expression

namespace Statement

def toJson : Statement → Json
  | assignment target expression =>
    .object [("Assignment",
      .object [("identifier", .string target), ("expression", expression.toJson)])]
  | output expression => .object [("Output", .object [("expression", expression.toJson)])]

/-- The content of a statement must be an object. -/
def ofJson? (json : Json) : Option Statement := do
  let (tag, content) ← json.variant?
  if tag = "Assignment" then
    return .assignment (← (← content.member? "identifier").string?)
      (← Expression.ofJson? (← content.member? "expression"))
  else if tag = "Output" then
    return .output (← Expression.ofJson? (← content.member? "expression"))
  else none

theorem ofJson?_toJson (statement : Statement) : ofJson? statement.toJson = some statement := by
  cases statement with
  | assignment target expression =>
    simp [toJson, ofJson?, Json.variant?, Json.member?, Json.lookup, Json.string?,
      expression.ofJson?_toJson]
  | output expression =>
    simp [toJson, ofJson?, Json.variant?, Json.member?, Json.lookup, expression.ofJson?_toJson]

end Statement

namespace Program

def toJson (program : Program) : Json :=
  .object [("statements", .array (program.statements.map Statement.toJson))]

def ofJson? (json : Json) : Option Program :=
  match json.record? ["statements"] with
  | some [statements] => do
    return ⟨← statements.list? Statement.ofJson?⟩
  | _ => none

end Program

end StraightLine
