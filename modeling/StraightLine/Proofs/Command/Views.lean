import StraightLine.Proofs.Command.Failure
import StraightLine.Proofs.Json.Views

/-!
# What an invocation shows of its input

Asked for lexemes or for a program, an invocation writes them down on standard
output and nothing else. Written as JSON they can be had back from there.
-/

namespace StraightLine.Command

namespace Workshop

section Showing

variable {workshop after : Workshop} {arguments : List String} {mode : Mode}
  {jsonErrors json : Bool} {input source : String}

theorem execute_of_perform {invocation : Invocation} {text : String}
    (hrequest : Request.ofArguments? arguments = some (.invoke invocation))
    (hperform : (perform host invocation).run.run workshop = (.ok text, after)) :
    workshop.execute arguments = (.success text, after) := by
  rw [execute, Command.execute, hrequest]
  exact run_invoke hperform

/-- The lexemes of the input are shown, and nothing is changed. -/
theorem execute_lex {lexemes : List Lexeme}
    (hrequest : Request.ofArguments? arguments =
      some (.invoke ⟨mode, jsonErrors, .lex json, input⟩))
    (htext : workshop.text input = .ok source)
    (hlexemes : Lexeme.analyze mode source = .ok lexemes) :
    workshop.execute arguments =
      (.success (if json then (Lexeme.listToJson lexemes).text .pretty ++ "\n" else table lexemes),
        workshop) := by
  have hread := run_readSource workshop input
  rw [htext] at hread
  refine execute_of_perform hrequest ?_
  rw [perform, run_bind_ok hread, hlexemes]
  cases json <;> rfl

end Showing

end Workshop

end StraightLine.Command
