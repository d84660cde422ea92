import StraightLine.Program.Reading

/-!
# Cursors of streams

A stream is a list of lexemes with a cursor, so a list and a number say all
about it. These are the facts about moving the cursor, by itself or by
reading a program from where it is.
-/

namespace StraightLine.Stream

theorem skip_eq (count : Nat) (stream : Stream) :
    stream.skip count =
      ⟨(stream.ahead.take count).reverse ++ stream.passed, stream.ahead.drop count⟩ := by
  fun_induction skip count stream with
  | case1 count passed lexeme ahead ih =>
    rw [ih]
    simp
  | case2 count stream h =>
    obtain ⟨passed, ahead⟩ := stream
    cases count with
    | zero => rfl
    | succ count =>
      cases ahead with
      | nil => rfl
      | cons lexeme ahead => exact (h _ _ _ _ rfl rfl).elim

theorem ahead_skip_ofList (lexemes : List Lexeme) (k : Nat) :
    ((ofList lexemes).skip k).ahead = lexemes.drop k :=
  ahead_skip k _

theorem skip_skip (stream : Stream) (a b : Nat) :
    (stream.skip a).skip b = stream.skip (a + b) := by
  rw [skip_eq, skip_eq a, skip_eq (a + b), List.take_add, List.drop_drop]
  simp

theorem skip_of_length_le {stream : Stream} {count : Nat} (h : stream.ahead.length ≤ count) :
    stream.skip count = stream.skip stream.ahead.length := by
  rw [skip_eq, skip_eq, List.take_of_length_le h, List.drop_of_length_le h, List.take_length,
    List.drop_length]

/-- Wherever the cursor starts, moving it over all that is ahead leaves it at the end. -/
theorem skip_length_ahead (lexemes : List Lexeme) (k : Nat) :
    ((ofList lexemes).skip k).skip ((ofList lexemes).skip k).ahead.length =
      (ofList lexemes).skip lexemes.length := by
  rw [skip_skip, ahead_skip_ofList, List.length_drop]
  refine skip_of_length_le ?_
  change lexemes.length ≤ k + (lexemes.length - k)
  omega

/-- The cursors in the lexemes ahead are distinct. -/
theorem eq_of_skip_eq {stream : Stream} {a b : Nat} (ha : a ≤ stream.ahead.length)
    (hb : b ≤ stream.ahead.length) (h : stream.skip a = stream.skip b) : a = b := by
  have hlength := congrArg (fun moved => moved.ahead.length) h
  simp only [ahead_skip, List.length_drop] at hlength
  omega

theorem ending_skip_ofList (lexemes : List Lexeme) (k : Nat) :
    ((ofList lexemes).skip k).ending = (lexemes.getLast?.map (·.span.stop)).getD 0 := by
  rw [ending_eq, toList_skip, toList_ofList]

theorem parse_eq {stream : Stream} {outcome : Except Fault Program} {rest : List Lexeme}
    (h : Rule.program stream.ending stream.ahead = (outcome, rest)) :
    stream.parse = (outcome, stream.skip (stream.ahead.length - rest.length)) := by
  rw [parse, h]

theorem exists_parse_eq_skip (stream : Stream) : ∃ n, stream.parse.2 = stream.skip n :=
  ⟨_, rfl⟩

end StraightLine.Stream
