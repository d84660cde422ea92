import StraightLine.Kind
import Mathlib.Computability.Language

/-!
# The grammar of programs

The grammar speaks of kinds alone and is regular, so it is written down as a
language. The phases are the places that a reader of the grammar can be in.
They are shown to be exactly the fronts of programs, which makes it a matter
of one step whether a front can still become a program.
-/

namespace StraightLine.Grammar

open scoped Computability

def expression : Language Kind :=
  {[.identifier]} + {[.number]}

def statement : Language Kind :=
  {[.identifier, .assignment]} * expression +
    {[.print, .openParen]} * expression * {[.closeParen]}

/-- Programs without their closing word. -/
def unclosed : Language Kind :=
  {[.start]} * statement∗

def program : Language Kind :=
  unclosed * {[.finish]}

def Viable (kinds : List Kind) : Prop :=
  ∃ more, kinds ++ more ∈ program

theorem mem_expression_iff (word : List Kind) :
    word ∈ expression ↔ word = [.identifier] ∨ word = [.number] := Iff.rfl

theorem mem_statement_iff (word : List Kind) :
    word ∈ statement ↔ ∃ value ∈ expression,
      word = [.identifier, .assignment] ++ value ∨
        word = [.print, .openParen] ++ value ++ [.closeParen] := by
  constructor
  · rintro (h | h)
    · obtain ⟨_, rfl, value, hvalue, rfl⟩ := Language.mem_mul.mp h
      exact ⟨value, hvalue, .inl rfl⟩
    · obtain ⟨_, hfront, _, rfl, rfl⟩ := Language.mem_mul.mp h
      obtain ⟨_, rfl, value, hvalue, rfl⟩ := Language.mem_mul.mp hfront
      exact ⟨value, hvalue, .inr rfl⟩
  · rintro ⟨value, hvalue, rfl | rfl⟩
    · exact .inl (Language.append_mem_mul rfl hvalue)
    · exact .inr (Language.append_mem_mul (Language.append_mem_mul rfl hvalue) rfl)

theorem mem_unclosed_iff (word : List Kind) :
    word ∈ unclosed ↔ ∃ words : List (List Kind),
      word = .start :: words.flatten ∧ ∀ part ∈ words, part ∈ statement := by
  constructor
  · intro h
    obtain ⟨_, rfl, body, hbody, rfl⟩ := Language.mem_mul.mp h
    obtain ⟨words, rfl, hwords⟩ := Language.mem_kstar.mp hbody
    exact ⟨words, rfl, hwords⟩
  · rintro ⟨words, rfl, hwords⟩
    have hstart : [Kind.start] ∈ ({[.start]} : Language Kind) := rfl
    exact Language.append_mem_mul hstart (Language.mem_kstar.mpr ⟨words, rfl, hwords⟩)

theorem mem_program_iff (word : List Kind) :
    word ∈ program ↔ ∃ front ∈ unclosed, word = front ++ [.finish] := by
  constructor
  · intro h
    obtain ⟨front, hfront, _, rfl, rfl⟩ := Language.mem_mul.mp h
    exact ⟨front, hfront, rfl⟩
  · rintro ⟨front, hfront, rfl⟩
    exact Language.append_mem_mul hfront rfl

theorem append_mem_unclosed {front word : List Kind} (hfront : front ∈ unclosed)
    (hword : word ∈ statement) : front ++ word ∈ unclosed := by
  obtain ⟨words, rfl, hwords⟩ := (mem_unclosed_iff front).mp hfront
  refine (mem_unclosed_iff _).mpr ⟨words ++ [word], by simp, ?_⟩
  intro part hpart
  rcases List.mem_append.mp hpart with hpart | hpart
  · exact hwords part hpart
  · exact List.mem_singleton.mp hpart ▸ hword

inductive Phase
  | opening
  | body
  | target
  | equals
  | printed
  | opened
  | valued
  | done
  deriving DecidableEq, Repr

namespace Phase

def next : Phase → Kind → Option Phase
  | opening, .start => some body
  | body, .finish => some done
  | body, .identifier => some target
  | body, .print => some printed
  | target, .assignment => some equals
  | equals, .identifier => some body
  | equals, .number => some body
  | printed, .openParen => some opened
  | opened, .identifier => some valued
  | opened, .number => some valued
  | valued, .closeParen => some body
  | _, _ => none

def after (phase : Phase) (kinds : List Kind) : Option Phase :=
  kinds.foldlM next phase

@[simp] theorem after_nil (phase : Phase) : phase.after [] = some phase := rfl

@[simp] theorem after_cons (phase : Phase) (kind : Kind) (rest : List Kind) :
    phase.after (kind :: rest) = (phase.next kind).bind fun middle => middle.after rest := rfl

theorem after_append (phase : Phase) (front back : List Kind) :
    phase.after (front ++ back) = (phase.after front).bind fun middle => middle.after back :=
  List.foldlM_append

theorem after_append_of_eq_some {phase middle : Phase} {front : List Kind}
    (h : phase.after front = some middle) (back : List Kind) :
    phase.after (front ++ back) = middle.after back := by
  rw [after_append, h, Option.bind_some]

/-- The kinds that can have been read when a phase is reached. -/
def front : Phase → Language Kind
  | opening => 1
  | body => unclosed
  | target => unclosed * {[.identifier]}
  | equals => unclosed * {[.identifier, .assignment]}
  | printed => unclosed * {[.print]}
  | opened => unclosed * {[.print, .openParen]}
  | valued => unclosed * ({[.print, .openParen]} * expression)
  | done => program

theorem after_statement {word : List Kind} (h : word ∈ statement) :
    body.after word = some body := by
  obtain ⟨value, rfl | rfl, rfl | rfl⟩ := (mem_statement_iff word).mp h
  all_goals rfl

theorem after_unclosed {word : List Kind} (h : word ∈ unclosed) :
    opening.after word = some body := by
  obtain ⟨words, rfl, hwords⟩ := (mem_unclosed_iff word).mp h
  clear h
  change body.after words.flatten = some body
  induction words with
  | nil => rfl
  | cons part words ih =>
    have hpart := after_statement (hwords part List.mem_cons_self)
    rw [List.flatten_cons, after_append_of_eq_some hpart]
    exact ih fun part hmem => hwords part (List.mem_cons_of_mem _ hmem)

theorem after_of_mem_front {phase : Phase} {kinds : List Kind} (h : kinds ∈ phase.front) :
    opening.after kinds = some phase := by
  have hafter : ∀ {a : List Kind}, a ∈ unclosed → ∀ b, opening.after (a ++ b) = body.after b :=
    fun ha b => after_append_of_eq_some (after_unclosed ha) b
  cases phase with
  | opening =>
    rw [(Language.mem_one kinds).mp h]
    rfl
  | body => exact after_unclosed h
  | valued =>
    obtain ⟨a, ha, _, hb, rfl⟩ := Language.mem_mul.mp h
    obtain ⟨_, rfl, value, rfl | rfl, rfl⟩ := Language.mem_mul.mp hb
    all_goals exact hafter ha _
  | target | equals | printed | opened | done =>
    obtain ⟨a, ha, _, rfl, rfl⟩ := Language.mem_mul.mp h
    exact hafter ha _

theorem append_mem_mul_of_mem {front back : Language Kind} {word kinds : List Kind} {kind : Kind}
    (h : kinds ∈ front * {word}) (hback : word ++ [kind] ∈ back) :
    kinds ++ [kind] ∈ front * back := by
  obtain ⟨a, ha, _, rfl, rfl⟩ := Language.mem_mul.mp h
  rw [List.append_assoc]
  exact Language.append_mem_mul ha hback

theorem append_mem_unclosed_of_mem {words : Language Kind} {kinds : List Kind} {kind : Kind}
    (h : kinds ∈ unclosed * words) (hwords : ∀ word ∈ words, word ++ [kind] ∈ statement) :
    kinds ++ [kind] ∈ unclosed := by
  obtain ⟨a, ha, word, hword, rfl⟩ := Language.mem_mul.mp h
  rw [List.append_assoc]
  exact append_mem_unclosed ha (hwords word hword)

theorem assignment_mem_statement {value : List Kind} (h : value ∈ expression) :
    ∀ word ∈ ({[.identifier, .assignment]} : Language Kind), word ++ value ∈ statement := by
  rintro _ rfl
  exact (mem_statement_iff _).mpr ⟨value, h, .inl rfl⟩

theorem output_mem_statement :
    ∀ word ∈ ({[.print, .openParen]} * expression : Language Kind),
      word ++ [.closeParen] ∈ statement := by
  intro word hword
  obtain ⟨_, rfl, value, hvalue, rfl⟩ := Language.mem_mul.mp hword
  exact (mem_statement_iff _).mpr ⟨value, hvalue, .inr rfl⟩

theorem mem_front_next {phase last : Phase} {kind : Kind} {kinds : List Kind}
    (h : kinds ∈ phase.front) (hnext : phase.next kind = some last) :
    kinds ++ [kind] ∈ last.front := by
  unfold next at hnext
  split at hnext
  all_goals cases hnext
  · rw [(Language.mem_one kinds).mp h]
    exact (mem_unclosed_iff _).mpr ⟨[], rfl, by simp⟩
  · exact Language.append_mem_mul h rfl
  · exact Language.append_mem_mul h rfl
  · exact Language.append_mem_mul h rfl
  · exact append_mem_mul_of_mem h rfl
  · exact append_mem_unclosed_of_mem h (assignment_mem_statement (.inl rfl))
  · exact append_mem_unclosed_of_mem h (assignment_mem_statement (.inr rfl))
  · exact append_mem_mul_of_mem h rfl
  · exact append_mem_mul_of_mem h (Language.append_mem_mul rfl (.inl rfl))
  · exact append_mem_mul_of_mem h (Language.append_mem_mul rfl (.inr rfl))
  · exact append_mem_unclosed_of_mem h output_mem_statement

theorem after_eq_some_iff (kinds : List Kind) (phase : Phase) :
    opening.after kinds = some phase ↔ kinds ∈ phase.front := by
  constructor
  · induction kinds using List.reverseRecOn generalizing phase with
    | nil =>
      rintro ⟨⟩
      exact (Language.mem_one _).mpr rfl
    | append_singleton kinds kind ih =>
      intro h
      rw [after_append] at h
      obtain ⟨middle, hmiddle, hnext⟩ := Option.bind_eq_some_iff.mp h
      refine mem_front_next (ih middle hmiddle) ?_
      simpa using hnext
  · exact after_of_mem_front

/-- Some kinds that make a program of what a phase stands for. -/
def completion : Phase → List Kind
  | opening => [.start, .finish]
  | body => [.finish]
  | target => [.assignment, .number, .finish]
  | equals => [.number, .finish]
  | printed => [.openParen, .number, .closeParen, .finish]
  | opened => [.number, .closeParen, .finish]
  | valued => [.closeParen, .finish]
  | done => []

theorem after_completion (phase : Phase) : phase.after phase.completion = some done := by
  cases phase <;> rfl

end Phase

theorem mem_program_iff_after (kinds : List Kind) :
    kinds ∈ program ↔ Phase.opening.after kinds = some .done :=
  (Phase.after_eq_some_iff kinds .done).symm

theorem mem_unclosed_iff_after (kinds : List Kind) :
    kinds ∈ unclosed ↔ Phase.opening.after kinds = some .body :=
  (Phase.after_eq_some_iff kinds .body).symm

theorem viable_iff_after (kinds : List Kind) :
    Viable kinds ↔ ∃ phase, Phase.opening.after kinds = some phase := by
  constructor
  · rintro ⟨more, hmore⟩
    rw [mem_program_iff_after, Phase.after_append] at hmore
    obtain ⟨phase, hphase, _⟩ := Option.bind_eq_some_iff.mp hmore
    exact ⟨phase, hphase⟩
  · rintro ⟨phase, hphase⟩
    refine ⟨phase.completion, ?_⟩
    rw [mem_program_iff_after, Phase.after_append_of_eq_some hphase, Phase.after_completion]

theorem viable_append_singleton_iff {front : List Kind} {phase : Phase}
    (h : Phase.opening.after front = some phase) (kind : Kind) :
    Viable (front ++ [kind]) ↔ (phase.next kind).isSome := by
  rw [viable_iff_after, Phase.after_append_of_eq_some h, Option.isSome_iff_exists]
  simp

end StraightLine.Grammar
