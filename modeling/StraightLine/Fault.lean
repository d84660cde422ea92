import StraightLine.Span
import StraightLine.Text.Decimal

/-!
# Faults

What can go wrong between a source text and an executable. A fault found in
the source has a span; one of the surroundings has none.
-/

namespace StraightLine

inductive Fault
  | unreadable (offset : Nat)
  | unexpected (expected found : String) (span : Span)
  | unterminated (span : Span)
  | trailing (found : String) (span : Span)
  | io (reason : String)
  | assembler (reason : String)
  deriving DecidableEq, Inhabited, Repr

def endOfInput : String :=
  "end of input"

namespace Fault

def message : Fault → String
  | unreadable offset =>
    "No token pattern matches the input at byte " ++ Decimal.ofNat offset
  | unexpected expected found _ => "Expected " ++ expected ++ " instead of \"" ++ found ++ "\"."
  | unterminated _ => "Expected \"end\" but the input ended first."
  | trailing found _ => "Unexpected symbols after \"end\": \"" ++ found ++ "\"."
  | io reason => "IO error: " ++ reason
  | assembler reason => "Assembler error: " ++ reason

def code : Fault → String
  | unreadable _ => "E0001"
  | unexpected .. => "E0002"
  | unterminated _ => "E0003"
  | trailing .. => "E0004"
  | io _ => "E0100"
  | assembler _ => "E0101"

def span? : Fault → Option Span
  | unreadable offset => some (Span.point offset)
  | unexpected _ _ span => some span
  | unterminated span => some span
  | trailing _ span => some span
  | io _ => none
  | assembler _ => none

end Fault

end StraightLine
