import StraightLine.Program

/-!
# The tree view of a program

Every node and every token of a program has a line of its own, indented by
two spaces for each node it is inside.
-/

namespace StraightLine

namespace Tree

/-- A line of the view: how many nodes it is inside, and its text. -/
abbrev Line := Nat × String

def node (label : String) (parts : List Line) : List Line :=
  (0, label) :: parts.map fun line => (line.1 + 1, line.2)

def token (text : String) : List Line :=
  [(0, text)]

def ofExpression : Expression → List Line
  | .identifier name => node "<expression>" (node "<identifier>" (token name))
  | .number literal => node "<expression>" (node "<number>" (token literal))

def ofStatement : Statement → List Line
  | .assignment target expression =>
    node "<assignment_statement>" (token target ++ token "=" ++ ofExpression expression)
  | .output expression =>
    node "<output_statement>"
      (token "print" ++ token "(" ++ ofExpression expression ++ token ")")

def ofProgram (program : Program) : List Line :=
  node "<program>"
    (token "start" ++ program.statements.flatMap ofStatement ++ token "end")

def render (line : Line) : String :=
  String.ofList (List.replicate (2 * line.1) ' ') ++ line.2 ++ "\n"

end Tree

def Program.tree (program : Program) : String :=
  String.join ((Tree.ofProgram program).map Tree.render)

end StraightLine
