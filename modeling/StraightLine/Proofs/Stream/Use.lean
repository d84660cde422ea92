import StraightLine.Proofs.Grammar.Refusal
import StraightLine.Stream.Use

/-!
# Streams after any use

What a stream has handed out since it was last restarted, one by one or to the
rules of the grammar, is the front of its list, and the cursor stands behind
it. So nothing that has been done with a stream can be seen in its answers but
the place of the cursor. A failed reading is no exception.
-/

namespace StraightLine

/-- What the rule for programs leaves is the end of what it was given. -/
theorem Rule.program_suffix (ending : Nat) (lexemes : List Lexeme) :
    (program ending lexemes).2 <:+ lexemes := by
  have hfollows : Follows ending .opening .done lexemes (program ending lexemes) := follows_program
  generalize program ending lexemes = answer at hfollows
  cases hfollows with
  | read value taken rest hsplit _ => exact ⟨taken, hsplit.symm⟩
  | stopped phase taken rest hsplit _ _ => exact ⟨taken, hsplit.symm⟩

namespace Stream

/-- The lexemes handed out in answer to a request: one to the caller, or those that the rule for
programs takes. -/
def handed (stream : Stream) : Request → List Lexeme
  | .next => stream.next.1.toList
  | .parse =>
    stream.ahead.take
      (stream.ahead.length - (Rule.program stream.ending stream.ahead).2.length)
  | _ => []

def after (stream : Stream) (requests : List Request) : Stream :=
  requests.foldl (fun stream request => (stream.use request).2) stream

theorem handed_next (stream : Stream) : stream.handed .next = stream.ahead.take 1 := by
  obtain ⟨passed, ahead⟩ := stream
  cases ahead <;> rfl

theorem handed_parse_append (stream : Stream) :
    stream.handed .parse ++ (Rule.program stream.ending stream.ahead).2 = stream.ahead := by
  obtain ⟨taken, hsplit⟩ := Rule.program_suffix stream.ending stream.ahead
  have hlength := congrArg List.length hsplit
  rw [List.length_append] at hlength
  have hcount : stream.ahead.length - (Rule.program stream.ending stream.ahead).2.length =
      taken.length := by omega
  rw [handed, hcount]
  nth_rewrite 1 [← hsplit]
  rw [List.take_left, hsplit]

/-- A request that does not restart the stream moves the cursor over what it hands out. -/
theorem passed_use (stream : Stream) {request : Request} (h : request ≠ .restart) :
    (stream.use request).2.passed = (stream.handed request).reverse ++ stream.passed := by
  cases request with
  | peek | isExhausted | endSpan => rfl
  | restart => contradiction
  | next =>
    change (stream.skip 1).passed = _
    rw [skip_eq, handed_next]
  | parse =>
    change (stream.skip _).passed = _
    rw [skip_eq]
    rfl

theorem ahead_use (stream : Stream) (request : Request) (h : request ≠ .restart) :
    stream.handed request ++ (stream.use request).2.ahead = stream.ahead := by
  have hlist := toList_use stream request
  rw [toList, toList, passed_use stream h, List.reverse_append, List.reverse_reverse,
    List.append_assoc] at hlist
  exact List.append_cancel_left hlist

/-- With nothing ahead only a restart changes the stream. -/
theorem after_of_isExhausted {stream : Stream} (h : stream.isExhausted = true)
    {requests : List Request} (hrequests : .restart ∉ requests) :
    stream.after requests = stream := by
  induction requests with
  | nil => rfl
  | cons request rest ih =>
    rw [List.mem_cons, not_or] at hrequests
    have hahead := ahead_use stream _ (Ne.symm hrequests.1)
    have hpassed := passed_use stream (Ne.symm hrequests.1)
    rw [isExhausted, List.isEmpty_iff] at h
    rw [h, List.append_eq_nil_iff] at hahead
    rw [hahead.1] at hpassed
    have huse : (stream.use request).2 = stream := by
      calc
        (stream.use request).2 =
            ⟨(stream.use request).2.passed, (stream.use request).2.ahead⟩ := rfl
        _ = ⟨stream.passed, stream.ahead⟩ := by rw [hpassed, hahead.2, h]; rfl
    rw [after, List.foldl_cons, huse]
    exact ih hrequests.2

theorem use_next_of_isExhausted {stream : Stream} (h : stream.isExhausted = true) :
    stream.use .next = (.lexeme none, stream) := by
  obtain ⟨passed, ahead⟩ := stream
  obtain rfl : ahead = [] := List.isEmpty_iff.mp h
  rfl

/-- A fresh stream from which so many lexemes have been taken one by one. -/
def advanced (lexemes : List Lexeme) (count : Nat) : Stream :=
  (ofList lexemes).after (List.replicate count .next)

theorem advanced_eq_skip (lexemes : List Lexeme) (count : Nat) :
    advanced lexemes count = (ofList lexemes).skip count := by
  induction count with
  | zero => rfl
  | succ count ih =>
    rw [advanced, after, List.replicate_succ', List.foldl_concat]
    change (advanced lexemes count).skip 1 = _
    rw [ih, skip_skip]

/-- The place of the cursor says all about a stream. -/
theorem eq_advanced (stream : Stream) :
    stream = advanced stream.toList stream.passed.length := by
  obtain ⟨passed, ahead⟩ := stream
  have hlength : passed.length = passed.reverse.length := List.length_reverse.symm
  rw [advanced_eq_skip, skip_eq, ofList, toList]
  dsimp only
  rw [hlength, List.take_left, List.drop_left, List.reverse_reverse, List.append_nil]

/-- A stream in use, with what it has handed out since it was made or last restarted. -/
structure History where
  stream : Stream
  handed : List Lexeme

namespace History

def start (lexemes : List Lexeme) : History :=
  ⟨ofList lexemes, []⟩

def use (history : History) (request : Request) : History where
  stream := (history.stream.use request).2
  handed :=
    if request = .restart then [] else history.handed ++ history.stream.handed request

def after (lexemes : List Lexeme) (requests : List Request) : History :=
  requests.foldl use (start lexemes)

/-- The cursor stands in the list, behind what has been handed out. -/
structure Keeps (lexemes : List Lexeme) (history : History) : Prop where
  toList_eq : history.stream.toList = lexemes
  passed_eq : history.stream.passed = history.handed.reverse

theorem keeps_start (lexemes : List Lexeme) : (start lexemes).Keeps lexemes :=
  ⟨rfl, rfl⟩

theorem Keeps.use {lexemes : List Lexeme} {history : History} (h : history.Keeps lexemes)
    (request : Request) : (history.use request).Keeps lexemes where
  toList_eq := (toList_use _ _).trans h.toList_eq
  passed_eq := by
    rw [History.use]
    dsimp only
    split
    · rename_i hrestart
      rw [hrestart]
      rfl
    · rename_i hrestart
      rw [passed_use _ hrestart, h.passed_eq, List.reverse_append]

theorem keeps_after (lexemes : List Lexeme) (requests : List Request) :
    (after lexemes requests).Keeps lexemes :=
  List.foldlRecOn requests use (keeps_start lexemes) fun _ h request _ => h.use request

end History

/-- What a stream over the lexemes answers and where it stands, given what it has handed out. -/
structure Replays (lexemes : List Lexeme) (history : History) : Prop where
  handed_append : history.handed ++ history.stream.ahead = lexemes
  cursor_eq : history.stream.passed.length = history.handed.length
  cursor_le : history.stream.passed.length ≤ lexemes.length
  peek_eq : history.stream.use .peek = ((history.stream.use .next).1, history.stream)
  isExhausted_eq :
    history.stream.use .isExhausted = (.flag (decide (history.handed = lexemes)), history.stream)
  endSpan_eq :
    history.stream.use .endSpan = (.span (Span.point (Lexeme.ending lexemes)), history.stream)
  next_none : history.handed = lexemes → ∀ requests, .restart ∉ requests →
    (history.stream.after requests).use .next = (.lexeme none, history.stream)
  parse_left : (history.stream.use .parse).2.ahead =
    (Rule.program history.stream.ending history.stream.ahead).2
  parse_eq : history.stream.use .parse =
    (advanced lexemes history.stream.passed.length).use .parse
  restart_parse : (history.stream.use .restart).2.use .parse = (ofList lexemes).use .parse

theorem History.Keeps.handed_append {lexemes : List Lexeme} {history : History}
    (h : history.Keeps lexemes) : history.handed ++ history.stream.ahead = lexemes := by
  rw [← h.toList_eq, toList, h.passed_eq, List.reverse_reverse]

theorem History.Keeps.isExhausted_iff {lexemes : List Lexeme} {history : History}
    (h : history.Keeps lexemes) : history.stream.isExhausted = true ↔ history.handed = lexemes := by
  rw [isExhausted, List.isEmpty_iff, ← h.handed_append, List.self_eq_append_right]

/-- However a stream has been used, what it has handed out since the last restart is the front of
its list, and it goes on as a fresh stream would from the same place. -/
theorem replays_after (lexemes : List Lexeme) (requests : List Request) :
    Replays lexemes (History.after lexemes requests) := by
  have hkeeps := History.keeps_after lexemes requests
  generalize History.after lexemes requests = history at hkeeps
  have hcursor : history.stream.passed.length = history.handed.length := by
    rw [hkeeps.passed_eq, List.length_reverse]
  refine ⟨hkeeps.handed_append, hcursor, ?_, rfl, ?_, ?_, ?_, ?_, ?_, ?_⟩
  · rw [hcursor, ← hkeeps.handed_append, List.length_append]
    exact Nat.le_add_right _ _
  · have hflag : history.stream.isExhausted = decide (history.handed = lexemes) := by
      rw [Bool.eq_iff_iff, hkeeps.isExhausted_iff, decide_eq_true_iff]
    rw [← hflag]
    rfl
  · have hending : history.stream.ending = Lexeme.ending lexemes := by
      rw [ending_eq, hkeeps.toList_eq]
      rfl
    rw [← hending]
    rfl
  · intro hall rest hrest
    have hexhausted := hkeeps.isExhausted_iff.mpr hall
    rw [after_of_isExhausted hexhausted hrest, use_next_of_isExhausted hexhausted]
  · have happend := ahead_use history.stream .parse (by simp)
    rw [← handed_parse_append history.stream] at happend
    exact List.append_cancel_left happend
  · rw [← hkeeps.toList_eq, ← eq_advanced]
  · rw [← hkeeps.toList_eq]
    rfl

end Stream

end StraightLine
