import StraightLine.Lexeme

/-!
# Streams of lexemes

A stream is a list of lexemes with a cursor in it, held as the lexemes passed
and the lexemes ahead. The cursor can therefore never leave the list.
-/

namespace StraightLine

structure Stream where
  /-- The lexemes behind the cursor, the last one first. -/
  passed : List Lexeme
  ahead : List Lexeme
  deriving DecidableEq, Inhabited, Repr

namespace Stream

def ofList (lexemes : List Lexeme) : Stream :=
  ⟨[], lexemes⟩

def toList (stream : Stream) : List Lexeme :=
  stream.passed.reverse ++ stream.ahead

@[simp] theorem toList_ofList (lexemes : List Lexeme) : (ofList lexemes).toList = lexemes := rfl

def peek? (stream : Stream) : Option Lexeme :=
  stream.ahead.head?

def isExhausted (stream : Stream) : Bool :=
  stream.ahead.isEmpty

/-- Moves the cursor over so many lexemes, or to the end if there are fewer. -/
def skip : Nat → Stream → Stream
  | count + 1, ⟨passed, lexeme :: ahead⟩ => skip count ⟨lexeme :: passed, ahead⟩
  | _, stream => stream

@[simp] theorem toList_skip (count : Nat) (stream : Stream) :
    (skip count stream).toList = stream.toList := by
  fun_induction skip count stream with
  | case1 count passed lexeme ahead ih => rw [ih]; simp [toList]
  | case2 => rfl

theorem ahead_skip (count : Nat) (stream : Stream) :
    (skip count stream).ahead = stream.ahead.drop count := by
  fun_induction skip count stream with
  | case1 count passed lexeme ahead ih => rw [ih]; rfl
  | case2 count stream h =>
    obtain ⟨passed, ahead⟩ := stream
    cases count with
    | zero => rfl
    | succ count =>
      cases ahead with
      | nil => rfl
      | cons lexeme ahead => exact (h _ _ _ _ rfl rfl).elim

/-- The lexeme at the cursor, and the stream behind it. -/
def next (stream : Stream) : Option Lexeme × Stream :=
  (stream.peek?, stream.skip 1)

def restart (stream : Stream) : Stream :=
  ofList stream.toList

/-- Where the last lexeme of the whole list ends, or zero when there is none. -/
def ending (stream : Stream) : Nat :=
  match stream.ahead.getLast? with
  | some lexeme => lexeme.span.stop
  | none => (stream.passed.head?.map (·.span.stop)).getD 0

theorem ending_eq (stream : Stream) :
    stream.ending = (stream.toList.getLast?.map (·.span.stop)).getD 0 := by
  rw [ending, toList, List.getLast?_append, List.getLast?_reverse]
  cases stream.ahead.getLast? <;> simp

def endSpan (stream : Stream) : Span :=
  Span.point stream.ending

end Stream

end StraightLine
