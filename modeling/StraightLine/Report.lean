import StraightLine.Fault
import StraightLine.Json.Printer

/-!
# Reports

A report is a fault made ready for a reader: its code and message, and its
place in a file as a line, a column and a length in bytes.
-/

namespace StraightLine

inductive Severity
  | error
  deriving DecidableEq, Inhabited, Repr

structure Location where
  file : String
  position : Position
  length : UInt64
  deriving DecidableEq, Inhabited, Repr

structure Report where
  code : String
  severity : Severity
  message : String
  location? : Option Location
  deriving DecidableEq, Inhabited, Repr

namespace Location

/-- Where a span is in a file with the given source, if its start is on a character and its end
is not before its start. -/
def ofSpan? (span : Span) (file source : String) : Option Location := do
  let position ← span.position? source
  let length ← span.length?
  return ⟨file, position, UInt64.ofNat length⟩

def toJson (location : Location) : Json :=
  .object [("file", .string location.file), ("line", .nat location.position.line.toNat),
    ("column", .nat location.position.column.toNat), ("length", .nat location.length.toNat)]

def ofJson? (json : Json) : Option Location :=
  match json.record? ["file", "line", "column", "length"] with
  | some [file, line, column, length] => do
    let line ← line.natBelow? UInt32.size
    let column ← column.natBelow? UInt32.size
    let length ← length.natBelow? UInt64.size
    return ⟨← file.string?, ⟨UInt32.ofNat line, UInt32.ofNat column⟩, UInt64.ofNat length⟩
  | _ => none

theorem ofJson?_toJson (location : Location) : ofJson? location.toJson = some location := by
  have hline := location.position.line.toNat_lt
  have hcolumn := location.position.column.toNat_lt
  have hlength := location.length.toNat_lt
  simp [ofJson?, toJson, Json.record?, Json.lookup, Json.natBelow?, Json.string?, hline, hcolumn,
    hlength]

end Location

namespace Severity

def toJson : Severity → Json
  | error => .string "Error"

def ofJson? (json : Json) : Option Severity := do
  if (← json.tag?) = "Error" then some error else none

end Severity

namespace Report

/-- The report of a fault in a file with the given source. A fault without a span is always
reported, and one with a span only if the span has a location. -/
def ofFault? (fault : Fault) (file source : String) : Option Report :=
  match fault.span? with
  | none => some ⟨fault.code, .error, fault.message, none⟩
  | some span =>
    (Location.ofSpan? span file source).map fun location =>
      ⟨fault.code, .error, fault.message, some location⟩

def locationToJson : Option Location → Json
  | none => .null
  | some location => location.toJson

def locationOfJson? : Json → Option (Option Location)
  | .null => some none
  | json => (Location.ofJson? json).map some

theorem locationOfJson?_locationToJson (location? : Option Location) :
    locationOfJson? (locationToJson location?) = some location? := by
  cases location? with
  | none => rfl
  | some location => exact congrArg (Option.map some) location.ofJson?_toJson

def toJson (report : Report) : Json :=
  .object [("code", .string report.code), ("severity", report.severity.toJson),
    ("message", .string report.message), ("location", locationToJson report.location?)]

def ofJson? (json : Json) : Option Report :=
  match json.record? ["code", "severity", "message", "location"] with
  | some [code, severity, message, location] => do
    return ⟨← code.string?, ← Severity.ofJson? severity, ← message.string?,
      ← locationOfJson? location⟩
  | _ => none

theorem ofJson?_toJson (report : Report) : ofJson? report.toJson = some report := by
  have hlocation := locationOfJson?_locationToJson report.location?
  obtain ⟨code, ⟨⟩, message, location?⟩ := report
  simp [ofJson?, toJson, Json.record?, Json.lookup, Json.string?, Severity.ofJson?,
    Severity.toJson, Json.tag?, hlocation]

def human (report : Report) : String :=
  match report.location? with
  | none => report.message
  | some location =>
    location.file ++ ":" ++ Decimal.ofNat location.position.line.toNat ++ ":" ++
      Decimal.ofNat location.position.column.toNat ++ ": " ++ report.message

def compact (report : Report) : String :=
  report.toJson.text .compact

def pretty (report : Report) : String :=
  report.toJson.text .pretty

end Report

end StraightLine
