import StraightLine.Text.Offset

/-!
# Spans and positions

A span is a pair of byte offsets. Nothing forces the end after the start or
the start onto a character, so length and position are partial.
-/

namespace StraightLine

structure Span where
  start : Nat
  stop : Nat
  deriving DecidableEq, Inhabited, Repr

/-- A line and a column, both counted from one. -/
structure Position where
  line : UInt32
  column : UInt32
  deriving DecidableEq, Inhabited, Repr

namespace Position

/-- The position just behind a text: a line feed ends a line, and a column is a character. -/
def after (front : List Char) : Position where
  line := UInt32.ofNat (front.count '\n' + 1)
  column := UInt32.ofNat ((front.reverse.takeWhile (· != '\n')).length + 1)

end Position

namespace Span

def point (offset : Nat) : Span :=
  ⟨offset, offset⟩

def length? (span : Span) : Option Nat :=
  if span.start ≤ span.stop then some (span.stop - span.start) else none

/-- Where the span starts in a source. A start beyond the source counts as its end. -/
def position? (span : Span) (source : String) : Option Position :=
  (Text.front? source.toList (min span.start (Text.byteSize source.toList))).map Position.after

theorem position?_of_append {span : Span} {source : String} {front back : List Char}
    (hsource : source.toList = front ++ back) (hstart : span.start = Text.byteSize front) :
    span.position? source = some (Position.after front) := by
  have hle : min span.start (Text.byteSize source.toList) = Text.byteSize front := by
    rw [hsource, Text.byteSize_append, hstart]
    omega
  rw [position?, hle, hsource, Text.front?_byteSize]
  rfl

end Span

end StraightLine
