import StraightLine.Proofs.Grammar.Spelling

/-!
# Where reading stops

A failure to read is reported at the first lexeme with which the kinds taken
so far are no longer the front of a program, or at the end of the lexemes if
there is none. The front decides what kind of fault it is. Nothing behind
that place is looked at, and the cursor is left on it.
-/

namespace StraightLine

namespace Grammar

/-- The wording tells which kinds can stand behind the front. -/
inductive Expects (front : List Kind) : String → Prop
  | only (kind : Kind) (h : ∀ other, Viable (front ++ [other]) ↔ other = kind) :
      Expects front kind.wording
  | statement (h : ∀ other, Viable (front ++ [other]) ↔
      other ∈ [Kind.finish, Kind.identifier, Kind.print]) : Expects front "a statement"
  | expression (h : ∀ other, Viable (front ++ [other]) ↔
      other ∈ [Kind.identifier, Kind.number]) : Expects front "an expression"

def Phase.Blocks (phase : Phase) (lexemes : List Lexeme) : Prop :=
  ∀ found ∈ lexemes.head?, phase.next found.kind = none

theorem Phase.done_blocks (lexemes : List Lexeme) : done.Blocks lexemes :=
  fun _ _ => rfl

theorem Phase.refuses_iff (phase : Phase) (lexemes : List Lexeme) :
    phase.Refuses lexemes ↔ phase.Blocks lexemes ∧ (phase = done → lexemes ≠ []) := by
  cases lexemes <;> simp [Refuses, Blocks]

theorem Phase.fault_nil {phase : Phase} (h : phase ≠ body) (ending : Nat) :
    phase.fault ending [] = .unexpected phase.wording endOfInput (Span.point ending) := by
  cases phase <;> first | rfl | contradiction

theorem Phase.fault_cons {phase : Phase} (h : phase ≠ done) (ending : Nat) (found : Lexeme)
    (rest : List Lexeme) :
    phase.fault ending (found :: rest) = .unexpected phase.wording found.source found.span := by
  cases phase <;> first | rfl | contradiction

theorem expects_only (kind : Kind) {front : List Kind} {phase : Phase}
    (h : Phase.opening.after front = some phase)
    (hnext : ∀ other, (phase.next other).isSome = true ↔ other = kind) :
    Expects front kind.wording := by
  apply Expects.only
  intro other
  exact (viable_append_singleton_iff h other).trans (hnext other)

theorem expects_wording {front : List Kind} {phase : Phase}
    (h : Phase.opening.after front = some phase) (hdone : phase ≠ .done) :
    Expects front phase.wording := by
  cases phase with
  | opening => exact expects_only .start h fun other => by cases other <;> decide
  | target => exact expects_only .assignment h fun other => by cases other <;> decide
  | printed => exact expects_only .openParen h fun other => by cases other <;> decide
  | valued => exact expects_only .closeParen h fun other => by cases other <;> decide
  | body =>
    apply Expects.statement
    intro other
    rw [viable_append_singleton_iff h]
    cases other <;> decide
  | equals | opened =>
    apply Expects.expression
    intro other
    rw [viable_append_singleton_iff h]
    cases other <;> decide
  | done => contradiction

end Grammar

namespace Rule

open Grammar

variable {ending : Nat} {lexemes rest : List Lexeme}

theorem eq_nil_of_blocks {phase last : Phase} {more : List Lexeme}
    (hblocks : phase.Blocks (more ++ rest))
    (hafter : phase.after (Lexeme.kinds more) = some last) : more = [] := by
  cases more with
  | nil => rfl
  | cons found left =>
    have hnext : phase.next found.kind = none := hblocks found rfl
    rw [Lexeme.kinds, List.map_cons, Phase.after_cons, hnext] at hafter
    cases hafter

/-- There is only one place at which lexemes lead no further. -/
theorem eq_of_blocks {phase last : Phase} {taken other left : List Lexeme}
    (hsplit : taken ++ rest = other ++ left)
    (hafter : Phase.opening.after (Lexeme.kinds taken) = some phase) (hblocks : phase.Blocks rest)
    (hlast : Phase.opening.after (Lexeme.kinds other) = some last) (hleft : last.Blocks left) :
    taken = other := by
  rcases List.append_eq_append_iff.mp hsplit with ⟨more, rfl, rfl⟩ | ⟨more, rfl, rfl⟩
  · rw [after_kinds_append hafter] at hlast
    rw [eq_nil_of_blocks hblocks hlast, List.append_nil]
  · rw [after_kinds_append hlast] at hafter
    rw [eq_nil_of_blocks hleft hafter, List.append_nil]

theorem program_eq_error_iff (ending : Nat) (lexemes rest : List Lexeme) (fault : Fault) :
    program ending lexemes = (.error fault, rest) ↔
      ∃ taken phase, lexemes = taken ++ rest ∧
        Phase.opening.after (Lexeme.kinds taken) = some phase ∧ phase.Refuses rest ∧
        fault = phase.fault ending rest := by
  have hfollows : Follows ending .opening .done lexemes (program ending lexemes) := follows_program
  constructor
  · intro h
    rw [h] at hfollows
    cases hfollows with
    | stopped phase taken _ hsplit hafter hrefuses =>
      exact ⟨taken, phase, hsplit, hafter, hrefuses, rfl⟩
  · rintro ⟨taken, phase, hsplit, hafter, hrefuses, rfl⟩
    -- reading does stop somewhere, and there is no second place where it could
    obtain ⟨hblocks, hend⟩ := (phase.refuses_iff rest).mp hrefuses
    generalize hanswer : program ending lexemes = answer at hfollows
    cases hfollows with
    | read read other left hother hdone =>
      obtain rfl := eq_of_blocks (hsplit.symm.trans hother) hafter hblocks hdone
        (Phase.done_blocks left)
      rw [hafter] at hdone
      obtain rfl := List.append_cancel_left (hsplit.symm.trans hother)
      exact absurd (rest_of_program hanswer) (hend (Option.some.inj hdone))
    | stopped last other left hother hlast hleft =>
      obtain rfl := eq_of_blocks (hsplit.symm.trans hother) hafter hblocks hlast
        ((last.refuses_iff left).mp hleft).1
      rw [hafter] at hlast
      obtain rfl := List.append_cancel_left (hsplit.symm.trans hother)
      rw [Option.some.inj hlast]

end Rule

def Lexeme.segment (lexemes : List Lexeme) (k i : Nat) : List Kind :=
  kinds ((lexemes.take i).drop k)

def Lexeme.ending (lexemes : List Lexeme) : Nat :=
  (lexemes.getLast?.map (·.span.stop)).getD 0

namespace Stream

open Grammar Lexeme

/-- Reading from one place in a list of lexemes fails at another and leaves the cursor there. -/
def FailsAt (lexemes : List Lexeme) (k i : Nat) (fault : Fault) : Prop :=
  ((ofList lexemes).skip k).parse = (.error fault, (ofList lexemes).skip i)

theorem parse_eq_error_iff {stream : Stream} {n : Nat} (hn : n ≤ stream.ahead.length)
    (fault : Fault) :
    stream.parse = (.error fault, stream.skip n) ↔
      ∃ phase, Phase.opening.after (kinds (stream.ahead.take n)) = some phase ∧
        phase.Refuses (stream.ahead.drop n) ∧
        fault = phase.fault stream.ending (stream.ahead.drop n) := by
  constructor
  · intro h
    generalize hanswer : Rule.program stream.ending stream.ahead = answer
    obtain ⟨outcome, rest⟩ := answer
    rw [parse_eq hanswer, Prod.mk.injEq] at h
    obtain ⟨rfl, hskip⟩ := h
    obtain ⟨taken, phase, hsplit, hafter, hrefuses, hfault⟩ :=
      (Rule.program_eq_error_iff _ _ _ _).mp hanswer
    have hlength := congrArg List.length hsplit
    rw [List.length_append] at hlength
    have htaken : taken.length = n := by
      have := eq_of_skip_eq (by omega) hn hskip
      omega
    rw [hsplit, ← htaken, List.take_left, List.drop_left]
    exact ⟨phase, hafter, hrefuses, hfault⟩
  · rintro ⟨phase, hafter, hrefuses, hfault⟩
    have hanswer := (Rule.program_eq_error_iff stream.ending stream.ahead _ fault).mpr
      ⟨_, phase, (List.take_append_drop n _).symm, hafter, hrefuses, hfault⟩
    rw [parse_eq hanswer, List.length_drop]
    have hback : stream.ahead.length - (stream.ahead.length - n) = n := by omega
    rw [hback]

theorem failsAt_iff {lexemes : List Lexeme} {k i : Nat} (hk : k ≤ i ∨ i = lexemes.length)
    (hi : i ≤ lexemes.length) (fault : Fault) :
    FailsAt lexemes k i fault ↔
      ∃ phase, Phase.opening.after (segment lexemes k i) = some phase ∧
        phase.Refuses (lexemes.drop i) ∧
        fault = phase.fault (Lexeme.ending lexemes) (lexemes.drop i) := by
  have hskip : ((ofList lexemes).skip k).skip (i - k) = (ofList lexemes).skip i := by
    rcases hk with hk | rfl
    · rw [skip_skip, Nat.add_sub_cancel' hk]
    · rw [← List.length_drop, ← ahead_skip_ofList, skip_length_ahead]
  have hdrop : ((ofList lexemes).skip k).ahead.drop (i - k) = lexemes.drop i := by
    rw [← ahead_skip, hskip, ahead_skip_ofList]
  have htake : ((ofList lexemes).skip k).ahead.take (i - k) = (lexemes.take i).drop k := by
    rw [ahead_skip_ofList, List.drop_take]
  have hn : i - k ≤ ((ofList lexemes).skip k).ahead.length := by
    rw [ahead_skip_ofList, List.length_drop]
    omega
  rw [FailsAt, ← hskip, parse_eq_error_iff hn, hdrop, htake, ending_skip_ofList]
  rfl

theorem failsAt_end_iff (lexemes : List Lexeme) (k : Nat) (fault : Fault) :
    FailsAt lexemes k lexemes.length fault ↔
      ∃ phase, Phase.opening.after (segment lexemes k lexemes.length) = some phase ∧
        phase ≠ .done ∧ fault = phase.fault (Lexeme.ending lexemes) [] := by
  rw [failsAt_iff (.inr rfl) le_rfl, List.drop_length]
  rfl

theorem failsAt_lexeme_iff {lexemes : List Lexeme} {k i : Nat} {lexeme : Lexeme} (hk : k ≤ i)
    (hi : lexemes[i]? = some lexeme) (fault : Fault) :
    FailsAt lexemes k i fault ↔
      ∃ phase, Phase.opening.after (segment lexemes k i) = some phase ∧
        phase.next lexeme.kind = none ∧
        fault = phase.fault (Lexeme.ending lexemes) (lexeme :: lexemes.drop (i + 1)) := by
  obtain ⟨hlt, rfl⟩ := List.getElem?_eq_some_iff.mp hi
  rw [failsAt_iff (.inl hk) hlt.le, List.drop_eq_getElem_cons hlt]
  rfl

theorem segment_succ {lexemes : List Lexeme} {k i : Nat} {lexeme : Lexeme} (hk : k ≤ i)
    (hi : lexemes[i]? = some lexeme) :
    segment lexemes k (i + 1) = segment lexemes k i ++ [lexeme.kind] := by
  obtain ⟨hlt, rfl⟩ := List.getElem?_eq_some_iff.mp hi
  rw [Lexeme.segment, List.take_succ_eq_append_getElem hlt, List.drop_append_of_le_length, kinds,
    List.map_append]
  · rfl
  · rw [List.length_take]
    omega

theorem failsAt_trailing_iff {lexemes : List Lexeme} {k i : Nat} {lexeme : Lexeme} (hk : k ≤ i)
    (hi : lexemes[i]? = some lexeme) :
    FailsAt lexemes k i (.trailing lexeme.source lexeme.span) ↔ segment lexemes k i ∈ program := by
  rw [failsAt_lexeme_iff hk hi, mem_program_iff_after]
  constructor
  · rintro ⟨phase, hafter, hnext, hfault⟩
    cases phase <;> first | exact hafter | cases hfault
  · intro h
    exact ⟨.done, h, rfl, rfl⟩

theorem failsAt_unterminated_iff (lexemes : List Lexeme) (k : Nat) :
    FailsAt lexemes k lexemes.length (.unterminated (Span.point (Lexeme.ending lexemes))) ↔
      segment lexemes k lexemes.length ∈ unclosed := by
  rw [failsAt_end_iff, mem_unclosed_iff_after]
  constructor
  · rintro ⟨phase, hafter, hdone, hfault⟩
    cases phase <;> first | exact hafter | cases hfault
  · intro h
    exact ⟨.body, h, nofun, rfl⟩

theorem failsAt_unexpected_end_iff (lexemes : List Lexeme) (k : Nat) :
    (∃ expected, FailsAt lexemes k lexemes.length
        (.unexpected expected endOfInput (Span.point (Lexeme.ending lexemes)))) ↔
      Viable (segment lexemes k lexemes.length) ∧
        segment lexemes k lexemes.length ∉ program ∧
        segment lexemes k lexemes.length ∉ unclosed := by
  constructor
  · rintro ⟨expected, h⟩
    obtain ⟨phase, hafter, hdone, hfault⟩ := (failsAt_end_iff lexemes k _).mp h
    refine ⟨(viable_iff_after _).mpr ⟨phase, hafter⟩, ?_, ?_⟩
    · rw [mem_program_iff_after, hafter]
      simpa using hdone
    · rw [mem_unclosed_iff_after, hafter]
      rintro ⟨⟩
      cases hfault
  · rintro ⟨hviable, hprogram, hunclosed⟩
    obtain ⟨phase, hafter⟩ := (viable_iff_after _).mp hviable
    rw [mem_program_iff_after, hafter, Option.some.injEq] at hprogram
    rw [mem_unclosed_iff_after, hafter, Option.some.injEq] at hunclosed
    exact ⟨phase.wording, (failsAt_end_iff lexemes k _).mpr
      ⟨phase, hafter, hprogram, (Phase.fault_nil hunclosed _).symm⟩⟩

theorem failsAt_unexpected_iff {lexemes : List Lexeme} {k i : Nat} {lexeme : Lexeme} (hk : k ≤ i)
    (hi : lexemes[i]? = some lexeme) :
    (∃ expected, FailsAt lexemes k i (.unexpected expected lexeme.source lexeme.span)) ↔
      Viable (segment lexemes k i) ∧ segment lexemes k i ∉ program ∧
        ¬Viable (segment lexemes k (i + 1)) := by
  rw [segment_succ hk hi]
  constructor
  · rintro ⟨expected, h⟩
    obtain ⟨phase, hafter, hnext, hfault⟩ := (failsAt_lexeme_iff hk hi _).mp h
    refine ⟨(viable_iff_after _).mpr ⟨phase, hafter⟩, ?_, ?_⟩
    · rw [mem_program_iff_after, hafter]
      rintro ⟨⟩
      cases hfault
    · rw [viable_append_singleton_iff hafter, hnext]
      nofun
  · rintro ⟨hviable, hprogram, hstop⟩
    obtain ⟨phase, hafter⟩ := (viable_iff_after _).mp hviable
    rw [mem_program_iff_after, hafter, Option.some.injEq] at hprogram
    rw [viable_append_singleton_iff hafter, Option.not_isSome_iff_eq_none] at hstop
    exact ⟨phase.wording, (failsAt_lexeme_iff hk hi _).mpr
      ⟨phase, hafter, hstop, (Phase.fault_cons hprogram _ _ _).symm⟩⟩

theorem fault_of_failsAt_lexeme {lexemes : List Lexeme} {k i : Nat} {lexeme : Lexeme}
    {fault : Fault} (hk : k ≤ i) (hi : lexemes[i]? = some lexeme) (h : FailsAt lexemes k i fault) :
    fault = .trailing lexeme.source lexeme.span ∨
      ∃ expected, fault = .unexpected expected lexeme.source lexeme.span ∧
        Expects (segment lexemes k i) expected := by
  obtain ⟨phase, hafter, hnext, rfl⟩ := (failsAt_lexeme_iff hk hi _).mp h
  rcases eq_or_ne phase .done with rfl | hdone
  · exact .inl rfl
  · rw [Phase.fault_cons hdone]
    exact .inr ⟨phase.wording, rfl, expects_wording hafter hdone⟩

theorem fault_of_failsAt_end {lexemes : List Lexeme} {k : Nat} {fault : Fault}
    (h : FailsAt lexemes k lexemes.length fault) :
    fault = .unterminated (Span.point (Lexeme.ending lexemes)) ∨
      ∃ expected, fault = .unexpected expected endOfInput (Span.point (Lexeme.ending lexemes)) ∧
        Expects (segment lexemes k lexemes.length) expected := by
  obtain ⟨phase, hafter, hdone, rfl⟩ := (failsAt_end_iff lexemes k _).mp h
  rcases eq_or_ne phase .body with rfl | hbody
  · exact .inl rfl
  · rw [Phase.fault_nil hbody]
    exact .inr ⟨phase.wording, rfl, expects_wording hafter hdone⟩

theorem failsAt_of_parse {lexemes : List Lexeme} {k : Nat} {fault : Fault} {stream : Stream}
    (h : ((ofList lexemes).skip k).parse = (.error fault, stream)) :
    (∃ i lexeme, k ≤ i ∧ lexemes[i]? = some lexeme ∧ stream = (ofList lexemes).skip i ∧
      FailsAt lexemes k i fault) ∨
    (stream = (ofList lexemes).skip lexemes.length ∧ FailsAt lexemes k lexemes.length fault) := by
  obtain ⟨n, hn⟩ := exists_parse_eq_skip ((ofList lexemes).skip k)
  have hstream : stream = (ofList lexemes).skip (k + n) := by
    rw [← skip_skip, ← hn, h]
  rw [hstream] at h
  rcases Nat.lt_or_ge (k + n) lexemes.length with hlt | hge
  · have hle := Nat.le_add_right k n
    exact .inl ⟨k + n, lexemes[k + n], hle, List.getElem?_eq_getElem hlt, hstream, h⟩
  · have hend : (ofList lexemes).skip (k + n) = (ofList lexemes).skip lexemes.length :=
      skip_of_length_le hge
    rw [hend] at h
    exact .inr ⟨hstream.trans hend, h⟩

/-- Reading fails at the first lexeme that no program can have there. It is left over when a
program is complete in front of it, and unexpected otherwise. If there is no such lexeme, reading
fails at the end, where just the closing word may be missing or something else. -/
theorem failsAt_first_refusal (lexemes : List Lexeme) (k : Nat) :
    (∀ i lexeme, k ≤ i → lexemes[i]? = some lexeme →
      (FailsAt lexemes k i (.trailing lexeme.source lexeme.span) ↔
        segment lexemes k i ∈ program)) ∧
    (FailsAt lexemes k lexemes.length (.unterminated (Span.point (Lexeme.ending lexemes))) ↔
      segment lexemes k lexemes.length ∈ unclosed) ∧
    ((∃ expected, FailsAt lexemes k lexemes.length
        (.unexpected expected endOfInput (Span.point (Lexeme.ending lexemes)))) ↔
      Viable (segment lexemes k lexemes.length) ∧
        segment lexemes k lexemes.length ∉ program ∧
        segment lexemes k lexemes.length ∉ unclosed) ∧
    (∀ i lexeme, k ≤ i → lexemes[i]? = some lexeme →
      ((∃ expected, FailsAt lexemes k i (.unexpected expected lexeme.source lexeme.span)) ↔
        Viable (segment lexemes k i) ∧ segment lexemes k i ∉ program ∧
          ¬Viable (segment lexemes k (i + 1)))) ∧
    ∀ fault stream, ((ofList lexemes).skip k).parse = (.error fault, stream) →
      (∃ i lexeme, k ≤ i ∧ lexemes[i]? = some lexeme ∧ stream = (ofList lexemes).skip i ∧
        (fault = .trailing lexeme.source lexeme.span ∨
          ∃ expected, fault = .unexpected expected lexeme.source lexeme.span ∧
            Expects (segment lexemes k i) expected)) ∨
      (stream = (ofList lexemes).skip lexemes.length ∧
        (fault = .unterminated (Span.point (Lexeme.ending lexemes)) ∨
          ∃ expected,
            fault = .unexpected expected endOfInput (Span.point (Lexeme.ending lexemes)) ∧
            Expects (segment lexemes k lexemes.length) expected)) := by
  refine ⟨fun i lexeme => failsAt_trailing_iff, failsAt_unterminated_iff lexemes k,
    failsAt_unexpected_end_iff lexemes k, fun i lexeme => failsAt_unexpected_iff, ?_⟩
  intro fault stream h
  rcases failsAt_of_parse h with ⟨i, lexeme, hk, hi, hstream, hfails⟩ | ⟨hstream, hfails⟩
  · exact .inl ⟨i, lexeme, hk, hi, hstream, fault_of_failsAt_lexeme hk hi hfails⟩
  · exact .inr ⟨hstream, fault_of_failsAt_end hfails⟩

end Stream

end StraightLine
