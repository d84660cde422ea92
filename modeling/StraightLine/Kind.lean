/-!
# Kinds of tokens

Every token has one of twelve kinds, listed here by falling priority. A kind
has a name, used wherever tokens are shown, and a wording, used where a token
of that kind was expected and not found.
-/

namespace StraightLine

inductive Kind
  | whiteSpace
  | start
  | finish
  | print
  | assignment
  | openParen
  | closeParen
  | openComment
  | closeComment
  | identifier
  | number
  | unrecognized
  deriving DecidableEq, Inhabited, Repr

namespace Kind

/-- Every kind, the highest priority first. -/
def all : List Kind :=
  [whiteSpace, start, finish, print, assignment, openParen, closeParen, openComment,
   closeComment, identifier, number, unrecognized]

theorem mem_all (kind : Kind) : kind ∈ all := by
  cases kind <;> decide

def name : Kind → String
  | whiteSpace => "white_space"
  | start => "start"
  | finish => "end"
  | print => "print"
  | assignment => "assignment_operator"
  | openParen => "open_paren"
  | closeParen => "close_paren"
  | openComment => "open_comment"
  | closeComment => "close_comment"
  | identifier => "identifier"
  | number => "number"
  | unrecognized => "unrecognized"

def ofName? (text : String) : Option Kind :=
  all.find? fun kind => kind.name == text

theorem ofName?_eq_some_iff (text : String) (kind : Kind) :
    ofName? text = some kind ↔ kind.name = text := by
  constructor
  · intro h
    simpa using List.find?_some h
  · rintro rfl
    cases kind <;> decide

/-- The wording of a missing token of this kind. -/
def wording : Kind → String
  | whiteSpace => "white space"
  | start => "\"start\""
  | finish => "\"end\""
  | print => "\"print\""
  | assignment => "an assignment operator"
  | openParen => "\"(\""
  | closeParen => "\")\""
  | openComment => "\"/*\""
  | closeComment => "\"*/\""
  | identifier => "an identifier"
  | number => "a number"
  | unrecognized => "an unrecognized symbol"

def keyword? (word : String) : Option Kind :=
  if word = "start" then some start
  else if word = "end" then some finish
  else if word = "print" then some print
  else none

theorem keyword?_eq_some_iff (word : String) (kind : Kind) :
    keyword? word = some kind ↔
      (word = "start" ∧ kind = start) ∨ (word = "end" ∧ kind = finish) ∨
        (word = "print" ∧ kind = print) := by
  grind [keyword?]

end Kind

end StraightLine
