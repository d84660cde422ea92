import StraightLine.Json
import StraightLine.Lexeme

/-!
# Lexemes as JSON

A lexeme is a record of its text, the name of its kind and its span.
-/

namespace StraightLine

def Kind.toJson (kind : Kind) : Json :=
  .string kind.name

def Kind.ofJson? (json : Json) : Option Kind :=
  json.tag?.bind Kind.ofName?

theorem Kind.ofJson?_toJson (kind : Kind) : Kind.ofJson? kind.toJson = some kind := by
  simp [ofJson?, toJson, Json.tag?, Kind.ofName?_eq_some_iff]

def Span.toJson (span : Span) : Json :=
  .object [("start", .nat span.start), ("end", .nat span.stop)]

/-- The ends of a span fit in sixty-four bits. -/
def Span.ofJson? (json : Json) : Option Span :=
  match json.record? ["start", "end"] with
  | some [start, stop] => do
    return ⟨← start.natBelow? UInt64.size, ← stop.natBelow? UInt64.size⟩
  | _ => none

namespace Lexeme

def toJson (lexeme : Lexeme) : Json :=
  .object [("source", .string lexeme.source), ("token", lexeme.kind.toJson),
    ("span", lexeme.span.toJson)]

def ofJson? (json : Json) : Option Lexeme :=
  match json.record? ["source", "token", "span"] with
  | some [source, kind, span] => do
    return ⟨← source.string?, ← Kind.ofJson? kind, ← Span.ofJson? span⟩
  | _ => none

def listToJson (lexemes : List Lexeme) : Json :=
  .array (lexemes.map toJson)

def listOfJson? (json : Json) : Option (List Lexeme) :=
  json.list? ofJson?

end Lexeme

end StraightLine
