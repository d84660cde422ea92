import StraightLine.Lexeme
import StraightLine.Program

/-!
# Reading a program

A rule looks at the lexemes ahead and either takes some of them from the front
or stops with a fault, leaving the offending lexeme in front. Every choice is
made on one lexeme, and nothing is taken back.
-/

namespace StraightLine

def Rule (α : Type) : Type :=
  List Lexeme → Except Fault α × List Lexeme

namespace Rule

instance : Monad Rule where
  pure a := fun lexemes => (.ok a, lexemes)
  bind first next := fun lexemes =>
    match first lexemes with
    | (.ok a, rest) => next a rest
    | (.error fault, rest) => (.error fault, rest)

@[simp] theorem pure_apply {α : Type} (a : α) (lexemes : List Lexeme) :
    (pure a : Rule α) lexemes = (.ok a, lexemes) := rfl

theorem bind_apply {α β : Type} (first : Rule α) (next : α → Rule β) (lexemes : List Lexeme) :
    (first >>= next) lexemes =
      match first lexemes with
      | (.ok a, rest) => next a rest
      | (.error fault, rest) => (.error fault, rest) := rfl

/-- Stops at the lexeme in front, or at the end of the source when there is none. -/
def refuse {α : Type} (ending : Nat) (expected : String) : Rule α
  | [] => (.error (.unexpected expected endOfInput (Span.point ending)), [])
  | found :: rest => (.error (.unexpected expected found.source found.span), found :: rest)

/-- Takes a lexeme of the given kind and gives its text. -/
def expect (ending : Nat) (kind : Kind) : Rule String
  | [] => refuse ending kind.wording []
  | found :: rest =>
    if found.kind = kind then (.ok found.source, rest)
    else refuse ending kind.wording (found :: rest)

def expression (ending : Nat) : Rule Expression
  | [] => refuse ending "an expression" []
  | found :: rest =>
    match found.kind with
    | .identifier => (.ok (.identifier found.source), rest)
    | .number => (.ok (.number found.source), rest)
    | _ => refuse ending "an expression" (found :: rest)

def assignment (ending : Nat) : Rule Statement := do
  let target ← expect ending .identifier
  let _ ← expect ending .assignment
  let value ← expression ending
  return .assignment target value

def output (ending : Nat) : Rule Statement := do
  let _ ← expect ending .print
  let _ ← expect ending .openParen
  let value ← expression ending
  let _ ← expect ending .closeParen
  return .output value

def statement (ending : Nat) : Rule Statement
  | [] => refuse ending "a statement" []
  | found :: rest =>
    match found.kind with
    | .identifier => assignment ending (found :: rest)
    | .print => output ending (found :: rest)
    | _ => refuse ending "a statement" (found :: rest)

/-- No rule adds a lexeme. -/
def Shrinks {α : Type} (rule : Rule α) : Prop :=
  ∀ lexemes, (rule lexemes).2.length ≤ lexemes.length

theorem shrinks_refuse {α : Type} (ending : Nat) (expected : String) :
    (refuse ending expected : Rule α).Shrinks := by
  rintro (_ | ⟨found, rest⟩) <;> simp [refuse]

theorem shrinks_expect (ending : Nat) (kind : Kind) : (expect ending kind).Shrinks := by
  rintro (_ | ⟨found, rest⟩)
  · exact shrinks_refuse ending _ []
  · rw [expect]
    split
    · simp
    · exact shrinks_refuse ending _ _

theorem shrinks_expression (ending : Nat) : (expression ending).Shrinks := by
  rintro (_ | ⟨found, rest⟩)
  · exact shrinks_refuse ending _ []
  · rw [expression]
    split
    · simp
    · simp
    · exact shrinks_refuse ending _ _

theorem shrinks_pure {α : Type} (a : α) : (pure a : Rule α).Shrinks := by
  simp [Shrinks]

theorem shrinks_bind {α β : Type} {first : Rule α} {next : α → Rule β}
    (hfirst : first.Shrinks) (hnext : ∀ a, (next a).Shrinks) : (first >>= next).Shrinks := by
  intro lexemes
  have := hfirst lexemes
  rw [bind_apply]
  split <;> rename_i h <;> rw [h] at this
  · exact Nat.le_trans (hnext _ _) this
  · exact this

/-- A rule that begins by expecting a lexeme takes at least that one. -/
theorem length_lt_of_expect_bind {α : Type} {ending : Nat} {kind : Kind} {next : String → Rule α}
    (hnext : ∀ a, (next a).Shrinks) {lexemes rest : List Lexeme} {a : α}
    (h : (expect ending kind >>= next) lexemes = (.ok a, rest)) :
    rest.length < lexemes.length := by
  cases lexemes with
  | nil => simp [bind_apply, expect, refuse] at h
  | cons found ahead =>
    rw [bind_apply, expect] at h
    split at h
    · rename_i hexpect
      split at hexpect
      · cases hexpect
        have := hnext found.source ahead
        rw [h] at this
        exact Nat.lt_succ_of_le this
      · simp [refuse] at hexpect
    · simp at h

theorem length_lt_of_statement {ending : Nat} {lexemes rest : List Lexeme} {read : Statement}
    (h : statement ending lexemes = (.ok read, rest)) : rest.length < lexemes.length := by
  cases lexemes with
  | nil => simp [statement, refuse] at h
  | cons found ahead =>
    rw [statement] at h
    split at h
    · refine length_lt_of_expect_bind (fun _ => ?_) h
      exact shrinks_bind (shrinks_expect _ _) fun _ =>
        shrinks_bind (shrinks_expression _) fun _ => shrinks_pure _
    · refine length_lt_of_expect_bind (fun _ => ?_) h
      exact shrinks_bind (shrinks_expect _ _) fun _ =>
        shrinks_bind (shrinks_expression _) fun _ =>
          shrinks_bind (shrinks_expect _ _) fun _ => shrinks_pure _
    · simp [refuse] at h

/-- Statements up to the closing word or the end of the lexemes. -/
def statements (ending : Nat) : Rule (List Statement)
  | [] => (.ok [], [])
  | found :: rest =>
    if found.kind = .finish then (.ok [], found :: rest)
    else
      match _ : statement ending (found :: rest) with
      | (.error fault, left) => (.error fault, left)
      | (.ok first, left) =>
        match statements ending left with
        | (.error fault, last) => (.error fault, last)
        | (.ok more, last) => (.ok (first :: more), last)
termination_by lexemes => lexemes.length
decreasing_by exact length_lt_of_statement ‹_›

/-- The closing word, with nothing behind it. -/
def closing (ending : Nat) : Rule Unit
  | [] => (.error (.unterminated (Span.point ending)), [])
  | found :: rest => (do
      let _ ← expect ending .finish
      fun
        | [] => (.ok (), [])
        | extra :: more => (.error (.trailing extra.source extra.span), extra :: more))
      (found :: rest)

def program (ending : Nat) : Rule Program := do
  let _ ← expect ending .start
  let read ← statements ending
  closing ending
  return ⟨read⟩

end Rule

end StraightLine
