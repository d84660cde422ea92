import StraightLine.Program.Parser
import StraightLine.Proofs.Grammar

/-!
# Rules follow the grammar

A rule reads from one phase of the grammar to another. It either takes kinds
that lead there, or it stops in a phase from which the lexeme in front leads
nowhere, and then its fault is the one that belongs to that phase. For the
rule of whole programs this fixes the answer to every list of lexemes.
-/

namespace StraightLine

def Lexeme.kinds (lexemes : List Lexeme) : List Kind :=
  lexemes.map Lexeme.kind

namespace Grammar.Phase

/-- How a fault calls what is missing. Nothing is missing when a program is done. -/
def wording : Phase → String
  | opening => Kind.start.wording
  | body => "a statement"
  | target => Kind.assignment.wording
  | equals => "an expression"
  | printed => Kind.openParen.wording
  | opened => "an expression"
  | valued => Kind.closeParen.wording
  | done => ""

def fault (ending : Nat) : Phase → List Lexeme → Fault
  | body, [] => .unterminated (Span.point ending)
  | done, extra :: _ => .trailing extra.source extra.span
  | phase, [] => .unexpected phase.wording endOfInput (Span.point ending)
  | phase, found :: _ => .unexpected phase.wording found.source found.span

def Refuses (phase : Phase) : List Lexeme → Prop
  | [] => phase ≠ done
  | found :: _ => phase.next found.kind = none

end Grammar.Phase

namespace Rule

open Grammar

inductive Follows {α : Type} (ending : Nat) (first last : Phase) (lexemes : List Lexeme) :
    Except Fault α × List Lexeme → Prop
  | read (value : α) (taken rest : List Lexeme) (hsplit : lexemes = taken ++ rest)
      (hafter : first.after (Lexeme.kinds taken) = some last) :
      Follows ending first last lexemes (.ok value, rest)
  | stopped (phase : Phase) (taken rest : List Lexeme) (hsplit : lexemes = taken ++ rest)
      (hafter : first.after (Lexeme.kinds taken) = some phase) (hrefuses : phase.Refuses rest) :
      Follows ending first last lexemes (.error (phase.fault ending rest), rest)

variable {α β : Type} {ending : Nat} {first middle last phase : Phase} {lexemes : List Lexeme}

theorem exists_of_bind_eq_ok {rule : Rule α} {next : α → Rule β} {value : β} {rest : List Lexeme}
    (h : (rule >>= next) lexemes = (.ok value, rest)) :
    ∃ found left, rule lexemes = (.ok found, left) ∧ next found left = (.ok value, rest) := by
  rw [bind_apply] at h
  split at h
  · rename_i found left hrule
    exact ⟨found, left, hrule, h⟩
  · cases h

theorem after_kinds_append {taken more : List Lexeme}
    (h : first.after (Lexeme.kinds taken) = some middle) :
    first.after (Lexeme.kinds (taken ++ more)) = middle.after (Lexeme.kinds more) := by
  rw [Lexeme.kinds, List.map_append]
  exact Phase.after_append_of_eq_some h _

theorem follows_bind (middle : Phase) {rule : Rule α} {next : α → Rule β}
    (hrule : Follows ending first middle lexemes (rule lexemes))
    (hnext : ∀ value rest, rule lexemes = (.ok value, rest) →
      Follows ending middle last rest (next value rest)) :
    Follows ending first last lexemes ((rule >>= next) lexemes) := by
  rw [bind_apply]
  generalize rule lexemes = outcome at hrule hnext
  cases hrule with
  | stopped phase taken rest hsplit hafter hrefuses =>
    exact .stopped phase taken rest hsplit hafter hrefuses
  | read value taken rest hsplit hafter =>
    have hrest := hnext value rest rfl
    change Follows ending first last lexemes (next value rest)
    generalize next value rest = outcome at hrest
    cases hrest with
    | read value more left hmore hlast =>
      refine .read value (taken ++ more) left ?_ ?_
      · rw [hsplit, hmore, List.append_assoc]
      · rw [after_kinds_append hafter, hlast]
    | stopped phase more left hmore hphase hrefuses =>
      refine .stopped phase (taken ++ more) left ?_ ?_ hrefuses
      · rw [hsplit, hmore, List.append_assoc]
      · rw [after_kinds_append hafter, hphase]

theorem follows_pure (value : α) :
    Follows ending last last lexemes ((pure value : Rule α) lexemes) :=
  .read value [] lexemes rfl rfl

/-- The two phases left out have faults of their own. -/
theorem follows_refuse (hbody : phase = .body → lexemes ≠ []) (hdone : phase ≠ .done)
    (hrefuses : phase.Refuses lexemes) :
    Follows ending phase last lexemes ((refuse ending phase.wording : Rule α) lexemes) := by
  have hfault : (refuse ending phase.wording : Rule α) lexemes =
      (.error (phase.fault ending lexemes), lexemes) := by
    cases lexemes <;> cases phase <;> simp_all [refuse, Phase.fault]
  rw [hfault]
  exact .stopped phase [] lexemes rfl rfl hrefuses

theorem follows_taken {value : α} {found : Lexeme} {rest : List Lexeme}
    (h : phase.next found.kind = some last) :
    Follows ending phase last (found :: rest) (.ok value, rest) := by
  refine .read value [found] rest rfl ?_
  rw [Lexeme.kinds, List.map_singleton, Phase.after_cons, h]
  rfl

theorem follows_expect {kind : Kind} (hnext : phase.next kind = some last)
    (hother : ∀ other, other ≠ kind → phase.next other = none)
    (hwording : phase.wording = kind.wording) (hbody : phase ≠ .body) (hdone : phase ≠ .done) :
    Follows ending phase last lexemes (expect ending kind lexemes) := by
  cases lexemes with
  | nil =>
    rw [expect, ← hwording]
    exact follows_refuse (fun h => absurd h hbody) hdone hdone
  | cons found rest =>
    rw [expect, ← hwording]
    split
    · rename_i hkind
      exact follows_taken (hkind ▸ hnext)
    · rename_i hkind
      exact follows_refuse (fun h => absurd h hbody) hdone (hother _ hkind)

theorem follows_expect_cons {found : Lexeme} {rest : List Lexeme}
    (hnext : phase.next found.kind = some last) :
    Follows ending phase last (found :: rest) (expect ending found.kind (found :: rest)) := by
  rw [expect, if_pos rfl]
  exact follows_taken hnext

theorem follows_expression (hidentifier : phase.next .identifier = some last)
    (hnumber : phase.next .number = some last)
    (hother : ∀ kind, kind ≠ .identifier → kind ≠ .number → phase.next kind = none)
    (hwording : phase.wording = "an expression") (hbody : phase ≠ .body) (hdone : phase ≠ .done) :
    Follows ending phase last lexemes (expression ending lexemes) := by
  cases lexemes with
  | nil =>
    rw [expression, ← hwording]
    exact follows_refuse (fun h => absurd h hbody) hdone hdone
  | cons found rest =>
    rw [expression, ← hwording]
    split
    · rename_i hkind
      exact follows_taken (hkind ▸ hidentifier)
    · rename_i hkind
      exact follows_taken (hkind ▸ hnumber)
    · rename_i hne hne'
      exact follows_refuse (fun h => absurd h hbody) hdone (hother _ hne hne')

theorem follows_equals : Follows ending .equals .body lexemes (expression ending lexemes) := by
  refine follows_expression rfl rfl ?_ rfl nofun nofun
  intro kind hidentifier hnumber
  cases kind <;> first | rfl | contradiction

theorem follows_opened : Follows ending .opened .valued lexemes (expression ending lexemes) := by
  refine follows_expression rfl rfl ?_ rfl nofun nofun
  intro kind hidentifier hnumber
  cases kind <;> first | rfl | contradiction

theorem follows_assignment {found : Lexeme} {rest : List Lexeme} (h : found.kind = .identifier) :
    Follows ending .body .body (found :: rest) (assignment ending (found :: rest)) := by
  rw [assignment, ← h]
  refine follows_bind .target (follows_expect_cons (by rw [h]; rfl)) ?_
  intro _ _ _
  refine follows_bind .equals (follows_expect rfl ?_ rfl nofun nofun) ?_
  · intro kind hkind
    cases kind <;> first | rfl | contradiction
  · intro _ _ _
    exact follows_bind .body follows_equals fun _ _ _ => follows_pure _

theorem follows_output {found : Lexeme} {rest : List Lexeme} (h : found.kind = .print) :
    Follows ending .body .body (found :: rest) (output ending (found :: rest)) := by
  rw [output, ← h]
  refine follows_bind .printed (follows_expect_cons (by rw [h]; rfl)) ?_
  intro _ _ _
  refine follows_bind .opened (follows_expect rfl ?_ rfl nofun nofun) ?_
  · intro kind hkind
    cases kind <;> first | rfl | contradiction
  · intro _ _ _
    refine follows_bind .valued follows_opened fun _ _ _ => ?_
    refine follows_bind .body (follows_expect rfl ?_ rfl nofun nofun) ?_
    · intro kind hkind
      cases kind <;> first | rfl | contradiction
    · intro _ _ _
      exact follows_pure _

theorem follows_statement {found : Lexeme} {rest : List Lexeme} (h : found.kind ≠ .finish) :
    Follows ending .body .body (found :: rest) (statement ending (found :: rest)) := by
  rw [statement]
  split
  · rename_i hkind
    exact follows_assignment hkind
  · rename_i hkind
    exact follows_output hkind
  · rename_i hidentifier hprint
    change Follows ending .body .body _ (refuse ending Phase.body.wording (found :: rest))
    refine follows_refuse (fun _ => List.cons_ne_nil _ _) (by decide) ?_
    change Phase.body.next found.kind = none
    generalize found.kind = kind at h hidentifier hprint
    cases kind <;> first | rfl | contradiction

theorem statements_cons {found : Lexeme} {rest : List Lexeme} (h : found.kind ≠ .finish) :
    statements ending (found :: rest) =
      (do
        let first ← statement ending
        let more ← statements ending
        return first :: more : Rule (List Statement)) (found :: rest) := by
  rw [statements, if_neg h, bind_apply]
  split <;> rename_i hfirst <;> rw [hfirst]
  rename_i first left
  change _ = (statements ending >>= _) left
  rw [bind_apply]
  split <;> rename_i hmore <;> rw [hmore]
  rfl

/-- Statements end before the closing word or with the lexemes. -/
theorem head_of_statements {read : List Statement} {rest : List Lexeme}
    (h : statements ending lexemes = (.ok read, rest)) :
    ∀ found ∈ rest.head?, found.kind = .finish := by
  fun_induction statements ending lexemes generalizing read rest with
  | case1 =>
    cases h
    exact nofun
  | case2 found ahead hkind =>
    cases h
    rintro _ ⟨⟩
    exact hkind
  | case3 => cases h
  | case4 => cases h
  | case5 found ahead hkind first left hfirst more last hmore ih =>
    cases h
    exact ih hmore

theorem follows_statements (lexemes : List Lexeme) :
    Follows ending .body .body lexemes (statements ending lexemes) := by
  cases lexemes with
  | nil =>
    rw [statements]
    exact .read [] [] [] rfl rfl
  | cons found rest =>
    rcases eq_or_ne found.kind .finish with hkind | hkind
    · rw [statements, if_pos hkind]
      exact .read [] [] (found :: rest) rfl rfl
    · rw [statements_cons hkind]
      refine follows_bind .body (follows_statement hkind) fun first left hfirst => ?_
      exact follows_bind .body (follows_statements left) fun _ _ _ => follows_pure _
termination_by lexemes.length
decreasing_by exact length_lt_of_statement hfirst

theorem follows_closing (h : ∀ found ∈ lexemes.head?, found.kind = .finish) :
    Follows ending .body .done lexemes (closing ending lexemes) := by
  cases lexemes with
  | nil => exact .stopped .body [] [] rfl rfl nofun
  | cons found rest =>
    have hkind : found.kind = .finish := h found rfl
    rw [closing, ← hkind]
    refine follows_bind .done (follows_expect_cons (by rw [hkind]; rfl)) ?_
    intro _ rest _
    cases rest with
    | nil => exact .read () [] [] rfl rfl
    | cons extra more => exact .stopped .done [] (extra :: more) rfl rfl rfl

theorem follows_program : Follows ending .opening .done lexemes (program ending lexemes) := by
  rw [program]
  refine follows_bind .body (follows_expect rfl ?_ rfl nofun nofun) ?_
  · intro kind hkind
    cases kind <;> first | rfl | contradiction
  · intro _ _ _
    refine follows_bind .body (follows_statements _) fun _ _ hread => ?_
    exact follows_bind .done (follows_closing (head_of_statements hread))
      fun _ _ _ => follows_pure _

end Rule

end StraightLine
