import StraightLine.Bench

/-!
# Sessions

A session is a bench with a current program, which is empty at first. Work on
programs is work on the current one.
-/

namespace StraightLine

structure Session where
  bench : Bench
  program : Program
  deriving Inhabited, Repr

namespace Session

inductive Request
  | analyze (source : String)
  | load (source : String)
  | interpret
  | compile
  | tree
  | valueOf (name : String)
  | addressOf (name : String)
  deriving DecidableEq, Inhabited, Repr

inductive Answer
  | bench (answer : Bench.Answer)
  | loaded (outcome : Except Fault Nat)

def start (mode : Mode) : Session :=
  ⟨.fresh mode, .empty⟩

def work (session : Session) (request : Bench.Request) : Answer × Session :=
  let (answer, bench) := session.bench.handle request
  (.bench answer, { session with bench })

/-- A program that cannot be read leaves the current one in place. -/
def handle (session : Session) : Request → Answer × Session
  | .analyze source => session.work (.analyze source)
  | .load source =>
    let (outcome, analyzer) := session.bench.analyzer.analyze source
    let session := { session with bench := { session.bench with analyzer } }
    match outcome.bind Program.ofLexemes with
    | .ok program => (.loaded (.ok program.statements.length), { session with program })
    | .error fault => (.loaded (.error fault), session)
  | .interpret => session.work (.interpret session.program)
  | .compile => session.work (.compile session.program)
  | .tree => session.work (.tree session.program)
  | .valueOf name => session.work (.valueOf name)
  | .addressOf name => session.work (.addressOf name)

def answers (session : Session) : List Request → List Answer
  | [] => []
  | request :: rest =>
    let (answer, session) := session.handle request
    answer :: answers session rest

end Session

end StraightLine
