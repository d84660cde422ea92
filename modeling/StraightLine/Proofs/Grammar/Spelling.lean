import StraightLine.Proofs.Grammar.Rules
import StraightLine.Proofs.Stream
import Mathlib.Data.List.Forall2

/-!
# Spelling programs

A program is written out as the kinds and texts of its tokens. Lexemes spell
it when they have these kinds and, where the program keeps a text, this text;
the texts of the other lexemes do not matter. Reading succeeds on the lexemes
that spell a program and on no others, and gives back that program.
-/

namespace StraightLine

def Kind.isKept : Kind → Bool
  | .identifier | .number => true
  | _ => false

def Expression.unparse : Expression → Kind × String
  | .identifier name => (.identifier, name)
  | .number literal => (.number, literal)

def Statement.unparse : Statement → List (Kind × String)
  | .assignment target expression =>
    [(.identifier, target), (.assignment, "="), expression.unparse]
  | .output expression =>
    [(.print, "print"), (.openParen, "("), expression.unparse, (.closeParen, ")")]

def Program.unparse (program : Program) : List (Kind × String) :=
  (.start, "start") :: program.statements.flatMap Statement.unparse ++ [(.finish, "end")]

structure Lexeme.Bears (lexeme : Lexeme) (token : Kind × String) : Prop where
  kind_eq : lexeme.kind = token.1
  source_eq : token.1.isKept = true → lexeme.source = token.2

def Lexeme.Spells (lexemes : List Lexeme) (program : Program) : Prop :=
  List.Forall₂ Bears lexemes program.unparse

namespace Lexeme

theorem kinds_of_forall₂_bears {lexemes : List Lexeme} {tokens : List (Kind × String)}
    (h : List.Forall₂ Bears lexemes tokens) : kinds lexemes = tokens.map Prod.fst := by
  induction h with
  | nil => rfl
  | cons hbears _ ih => exact congrArg₂ List.cons hbears.kind_eq ih

theorem texts_of_forall₂_bears {lexemes : List Lexeme} {tokens : List (Kind × String)}
    (h : List.Forall₂ Bears lexemes tokens) :
    (lexemes.filter fun lexeme => lexeme.kind.isKept).map source =
      (tokens.filter fun token => token.1.isKept).map Prod.snd := by
  induction h with
  | nil => rfl
  | @cons lexeme token _ _ hbears _ ih =>
    rw [List.filter_cons, List.filter_cons, hbears.kind_eq]
    split
    · rename_i hkept
      rw [List.map_cons, List.map_cons, ih, hbears.source_eq hkept]
    · exact ih

end Lexeme

namespace Rule

open Grammar Lexeme

variable {ending : Nat}

theorem expect_of_kind {kind : Kind} {found : Lexeme} (h : found.kind = kind)
    (rest : List Lexeme) : expect ending kind (found :: rest) = (.ok found.source, rest) := by
  rw [expect, if_pos h]

theorem expression_of_bears {value : Expression} {found : Lexeme} (h : found.Bears value.unparse)
    (rest : List Lexeme) : expression ending (found :: rest) = (.ok value, rest) := by
  cases value with
  | identifier name =>
    have hkind : found.kind = .identifier := h.kind_eq
    have hsource : found.source = name := h.source_eq rfl
    rw [expression, hkind, hsource]
  | number literal =>
    have hkind : found.kind = .number := h.kind_eq
    have hsource : found.source = literal := h.source_eq rfl
    rw [expression, hkind, hsource]

theorem statement_of_bears {read : Statement} {taken : List Lexeme}
    (h : List.Forall₂ Bears taken read.unparse) (rest : List Lexeme) :
    statement ending (taken ++ rest) = (.ok read, rest) := by
  cases read with
  | assignment target value =>
    obtain ⟨name, _, hname, h₁, rfl⟩ := List.forall₂_cons_right_iff.mp h
    obtain ⟨equals, _, hequals, h₂, rfl⟩ := List.forall₂_cons_right_iff.mp h₁
    obtain ⟨found, _, hfound, ⟨⟩, rfl⟩ := List.forall₂_cons_right_iff.mp h₂
    have hkind : name.kind = .identifier := hname.kind_eq
    have hsource : name.source = target := hname.source_eq rfl
    simp only [List.cons_append, List.nil_append, statement, hkind, assignment, bind_apply,
      expect_of_kind hkind, expect_of_kind hequals.kind_eq, expression_of_bears hfound, pure_apply,
      hsource]
  | output value =>
    obtain ⟨word, _, hword, h₁, rfl⟩ := List.forall₂_cons_right_iff.mp h
    obtain ⟨opening, _, hopening, h₂, rfl⟩ := List.forall₂_cons_right_iff.mp h₁
    obtain ⟨found, _, hfound, h₃, rfl⟩ := List.forall₂_cons_right_iff.mp h₂
    obtain ⟨closing, _, hclosing, ⟨⟩, rfl⟩ := List.forall₂_cons_right_iff.mp h₃
    have hkind : word.kind = .print := hword.kind_eq
    simp only [List.cons_append, List.nil_append, statement, hkind, output, bind_apply,
      expect_of_kind hkind, expect_of_kind hopening.kind_eq, expression_of_bears hfound,
      expect_of_kind hclosing.kind_eq, pure_apply]

theorem head_of_bears_statement {read : Statement} {taken : List Lexeme}
    (h : List.Forall₂ Bears taken read.unparse) :
    ∃ found rest, taken = found :: rest ∧ found.kind ≠ .finish := by
  cases read with
  | assignment target value =>
    obtain ⟨found, rest, hfound, _, rfl⟩ := List.forall₂_cons_right_iff.mp h
    exact ⟨found, rest, rfl, by rw [hfound.kind_eq]; nofun⟩
  | output value =>
    obtain ⟨found, rest, hfound, _, rfl⟩ := List.forall₂_cons_right_iff.mp h
    exact ⟨found, rest, rfl, by rw [hfound.kind_eq]; nofun⟩

theorem statements_of_bears {read : List Statement} {taken : List Lexeme}
    (h : List.Forall₂ Bears taken (read.flatMap Statement.unparse)) {closing : Lexeme}
    (hclosing : closing.kind = .finish) :
    statements ending (taken ++ [closing]) = (.ok read, [closing]) := by
  induction read generalizing taken with
  | nil =>
    cases h
    rw [List.nil_append, statements, if_pos hclosing]
  | cons first more ih =>
    rw [List.flatMap_cons] at h
    have hfirst := List.forall₂_take_append _ _ _ h
    have hmore := List.forall₂_drop_append _ _ _ h
    rw [← List.take_append_drop first.unparse.length taken, List.append_assoc]
    generalize taken.take first.unparse.length = front at hfirst
    generalize taken.drop first.unparse.length = back at hmore
    obtain ⟨found, rest, rfl, hkind⟩ := head_of_bears_statement hfirst
    rw [List.cons_append, statements_cons hkind, ← List.cons_append, bind_apply,
      statement_of_bears hfirst]
    change (statements ending >>= _) (back ++ [closing]) = _
    rw [bind_apply, ih hmore]
    rfl

theorem closing_of_kind {last : Lexeme} (h : last.kind = .finish) :
    closing ending [last] = (.ok (), []) := by
  refine (bind_apply _ _ _).trans ?_
  rw [expect_of_kind h]

theorem program_of_spells {lexemes : List Lexeme} {read : Program} (h : Spells lexemes read) :
    program ending lexemes = (.ok read, []) := by
  obtain ⟨first, middle, hfirst, hmiddle, rfl⟩ := List.forall₂_cons_right_iff.mp h
  have hbody := List.forall₂_take_append _ _ _ hmiddle
  obtain ⟨last, _, hlast, ⟨⟩, hdrop⟩ :=
    List.forall₂_cons_right_iff.mp (List.forall₂_drop_append _ _ _ hmiddle)
  have hkind : last.kind = .finish := hlast.kind_eq
  rw [program, bind_apply, expect_of_kind hfirst.kind_eq, ← List.take_append_drop _ middle, hdrop]
  change (statements ending >>= _) _ = _
  rw [bind_apply, statements_of_bears hbody hkind]
  change (closing ending >>= _) [last] = _
  rw [bind_apply, closing_of_kind hkind]
  rfl

theorem rest_of_closing {lexemes rest : List Lexeme} {done : Unit}
    (h : closing ending lexemes = (.ok done, rest)) : rest = [] := by
  cases lexemes with
  | nil => cases h
  | cons found left =>
    obtain ⟨_, more, _, hmore⟩ := exists_of_bind_eq_ok h
    cases more with
    | nil =>
      cases hmore
      rfl
    | cons => cases hmore

/-- Reading a program either takes every lexeme or fails. -/
theorem rest_of_program {lexemes rest : List Lexeme} {read : Program}
    (h : program ending lexemes = (.ok read, rest)) : rest = [] := by
  obtain ⟨_, _, _, hbody⟩ := exists_of_bind_eq_ok h
  obtain ⟨_, _, _, hend⟩ := exists_of_bind_eq_ok hbody
  obtain ⟨_, _, hclosing, hpure⟩ := exists_of_bind_eq_ok hend
  cases hpure
  exact rest_of_closing hclosing

theorem kinds_of_program {lexemes rest : List Lexeme} {read : Program}
    (h : program ending lexemes = (.ok read, rest)) : kinds lexemes ∈ Grammar.program := by
  have hfollows : Follows ending .opening .done lexemes (program ending lexemes) :=
    follows_program
  rw [h] at hfollows
  cases hfollows with
  | read _ taken _ hsplit hafter =>
    rw [hsplit, rest_of_program h, List.append_nil]
    exact (mem_program_iff_after _).mpr hafter

end Rule

namespace Lexeme

open Grammar

theorem exists_bears_expression {taken : List Lexeme} (h : kinds taken ∈ expression) :
    ∃ found value, taken = [found] ∧ found.Bears (Expression.unparse value) := by
  rcases (mem_expression_iff _).mp h with h | h
  · obtain ⟨found, rfl, hkind⟩ := List.map_eq_singleton_iff.mp h
    exact ⟨found, .identifier found.source, rfl, hkind, fun _ => rfl⟩
  · obtain ⟨found, rfl, hkind⟩ := List.map_eq_singleton_iff.mp h
    exact ⟨found, .number found.source, rfl, hkind, fun _ => rfl⟩

theorem exists_bears_statement {taken : List Lexeme} (h : kinds taken ∈ statement) :
    ∃ read : Statement, List.Forall₂ Bears taken read.unparse := by
  obtain ⟨word, hvalue, hword | hword⟩ := (mem_statement_iff _).mp h
  · obtain ⟨name, _, rfl, hname, hrest⟩ := List.map_eq_cons_iff.mp hword
    obtain ⟨equals, _, rfl, hequals, rfl⟩ := List.map_eq_cons_iff.mp hrest
    obtain ⟨found, value, rfl, hfound⟩ := exists_bears_expression hvalue
    refine ⟨.assignment name.source value, .cons ⟨hname, fun _ => rfl⟩ ?_⟩
    exact .cons ⟨hequals, nofun⟩ (.cons hfound .nil)
  · obtain ⟨front, _, rfl, hfront, hback⟩ := List.map_eq_append_iff.mp hword
    obtain ⟨closing, rfl, hclosing⟩ := List.map_eq_singleton_iff.mp hback
    obtain ⟨print, _, rfl, hprint, hrest⟩ := List.map_eq_cons_iff.mp hfront
    obtain ⟨opening, _, rfl, hopening, rfl⟩ := List.map_eq_cons_iff.mp hrest
    obtain ⟨found, value, rfl, hfound⟩ := exists_bears_expression hvalue
    refine ⟨.output value, .cons ⟨hprint, nofun⟩ (.cons ⟨hopening, nofun⟩ ?_)⟩
    exact .cons hfound (.cons ⟨hclosing, nofun⟩ .nil)

theorem exists_bears_statements {words : List (List Kind)}
    (hwords : ∀ word ∈ words, word ∈ statement) {taken : List Lexeme}
    (h : kinds taken = words.flatten) :
    ∃ read : List Statement, List.Forall₂ Bears taken (read.flatMap Statement.unparse) := by
  induction words generalizing taken with
  | nil =>
    rw [kinds, List.flatten_nil, List.map_eq_nil_iff] at h
    exact ⟨[], h ▸ .nil⟩
  | cons word words ih =>
    rw [kinds, List.flatten_cons] at h
    obtain ⟨front, back, rfl, hfront, hback⟩ := List.map_eq_append_iff.mp h
    obtain ⟨first, hfirst⟩ := exists_bears_statement (hfront ▸ hwords word List.mem_cons_self)
    obtain ⟨more, hmore⟩ := ih (fun word hmem => hwords word (List.mem_cons_of_mem _ hmem)) hback
    exact ⟨first :: more, List.rel_append hfirst hmore⟩

theorem exists_spells {lexemes : List Lexeme} (h : kinds lexemes ∈ program) :
    ∃ read, Spells lexemes read := by
  obtain ⟨_, hfront, hword⟩ := (mem_program_iff _).mp h
  obtain ⟨words, rfl, hwords⟩ := (mem_unclosed_iff _).mp hfront
  obtain ⟨first, _, rfl, hfirst, hrest⟩ := List.map_eq_cons_iff.mp hword
  obtain ⟨middle, _, rfl, hmiddle, hend⟩ := List.map_eq_append_iff.mp hrest
  obtain ⟨last, rfl, hlast⟩ := List.map_eq_singleton_iff.mp hend
  obtain ⟨read, hread⟩ := exists_bears_statements hwords hmiddle
  refine ⟨⟨read⟩, .cons ⟨hfirst, nofun⟩ (List.rel_append hread ?_)⟩
  exact .cons ⟨hlast, nofun⟩ .nil

end Lexeme

/-- Reading takes all lexemes exactly when they spell the program it gives. -/
theorem Rule.program_eq_ok_iff (ending : Nat) (lexemes rest : List Lexeme) (read : Program) :
    program ending lexemes = (.ok read, rest) ↔ Lexeme.Spells lexemes read ∧ rest = [] := by
  constructor
  · intro h
    obtain ⟨other, hother⟩ := Lexeme.exists_spells (kinds_of_program h)
    have hread : program ending lexemes = (.ok other, []) := program_of_spells hother
    rw [h] at hread
    cases hread
    exact ⟨hother, rfl⟩
  · rintro ⟨hspells, rfl⟩
    exact program_of_spells hspells

theorem Lexeme.kinds_of_spells {lexemes : List Lexeme} {program : Program}
    (h : Spells lexemes program) : kinds lexemes ∈ Grammar.program := by
  have hread : Rule.program 0 lexemes = (.ok program, []) := Rule.program_of_spells h
  exact Rule.kinds_of_program hread

theorem Lexeme.Spells.unique {lexemes : List Lexeme} {first second : Program}
    (hfirst : Spells lexemes first) (hsecond : Spells lexemes second) : first = second := by
  have h : Rule.program 0 lexemes = (.ok first, []) := Rule.program_of_spells hfirst
  rw [Rule.program_of_spells hsecond] at h
  cases h
  rfl

theorem Stream.parse_of_spells {stream : Stream} {program : Program}
    (h : Lexeme.Spells stream.ahead program) :
    stream.parse = (.ok program, stream.skip stream.ahead.length) :=
  parse_eq (Rule.program_of_spells h)

theorem Stream.spells_of_parse {stream : Stream} {program : Program}
    (h : stream.parse.1 = .ok program) : Lexeme.Spells stream.ahead program := by
  have hread : Rule.program stream.ending stream.ahead =
      (.ok program, (Rule.program stream.ending stream.ahead).2) := Prod.ext h rfl
  exact ((Rule.program_eq_ok_iff _ _ _ _).mp hread).1

/-- From any place in any list of lexemes, what is ahead is read as a program just when its kinds
are a sentence of the grammar. The program is the only one that the lexemes spell, so it keeps
their texts in their order, and nothing is left ahead. -/
theorem Stream.parse_eq_ok_iff_spells (lexemes : List Lexeme) (k : Nat) :
    (∀ program, ((ofList lexemes).skip k).parse.1 = .ok program ↔
      Lexeme.kinds (lexemes.drop k) ∈ Grammar.program ∧
        Lexeme.Spells (lexemes.drop k) program) ∧
    (Lexeme.kinds (lexemes.drop k) ∈ Grammar.program ↔
      ∃! program, Lexeme.Spells (lexemes.drop k) program) ∧
    ∀ program, ((ofList lexemes).skip k).parse.1 = .ok program →
      program.unparse.map Prod.fst = Lexeme.kinds (lexemes.drop k) ∧
      (program.unparse.filter fun token => token.1.isKept).map Prod.snd =
        ((lexemes.drop k).filter fun lexeme => lexeme.kind.isKept).map Lexeme.source ∧
      ((ofList lexemes).skip k).parse.2 = (ofList lexemes).skip lexemes.length ∧
      ((ofList lexemes).skip k).parse.2.isExhausted = true := by
  rw [← ahead_skip_ofList, ← skip_length_ahead lexemes k]
  generalize (ofList lexemes).skip k = stream
  refine ⟨?_, ?_, ?_⟩
  · intro program
    constructor
    · intro h
      exact ⟨Lexeme.kinds_of_spells (spells_of_parse h), spells_of_parse h⟩
    · rintro ⟨_, h⟩
      rw [parse_of_spells h]
  · constructor
    · intro h
      obtain ⟨program, hprogram⟩ := Lexeme.exists_spells h
      exact ⟨program, hprogram, fun _ hother => hother.unique hprogram⟩
    · rintro ⟨program, hprogram, _⟩
      exact Lexeme.kinds_of_spells hprogram
  · intro program h
    have hspells := spells_of_parse h
    rw [parse_of_spells hspells]
    refine ⟨(Lexeme.kinds_of_forall₂_bears hspells).symm,
      (Lexeme.texts_of_forall₂_bears hspells).symm, rfl, ?_⟩
    rw [isExhausted, ahead_skip, List.drop_length]
    rfl

end StraightLine
