import StraightLine.Lexeme

/-!
# Arguments

Options may stand before and after the verb. On either side each option is
given at most once; for an option that stands on both sides, a flag counts if
it is given at all and a value is taken from behind the verb.
-/

namespace StraightLine.Command

inductive Verb
  | lex
  | parse
  | run
  | build
  | check
  deriving DecidableEq, Inhabited, Repr

def Verb.ofName? (name : String) : Option Verb :=
  if name = "lex" then some lex
  else if name = "parse" then some parse
  else if name = "run" then some run
  else if name = "build" then some build
  else if name = "check" then some check
  else none

inductive Setting
  | mode
  | jsonErrors
  | json
  | output
  | emitAssembly
  deriving DecidableEq, Inhabited, Repr

namespace Setting

def ofName? (name : String) : Option Setting :=
  if name = "mode" then some mode
  else if name = "json-errors" then some jsonErrors
  else if name = "json" then some json
  else if name = "output" then some output
  else if name = "emit-asm" then some emitAssembly
  else none

def takesValue : Setting → Bool
  | mode => true
  | output => true
  | _ => false

/-- Whether an option may stand behind a verb, or before any. -/
def isAllowed : Setting → Option Verb → Bool
  | mode, _ => true
  | jsonErrors, _ => true
  | json, verb? => verb? == some .lex || verb? == some .parse
  | output, verb? => verb? == some .build
  | emitAssembly, verb? => verb? == some .build

end Setting

def modeOfName? (name : String) : Option Mode :=
  if name = "pattern" then some .pattern
  else if name = "scan" then some .scan
  else none

/-- What has been chosen on one side of the verb. -/
structure Choices where
  mode? : Option Mode
  jsonErrors : Bool
  json : Bool
  output? : Option String
  emitAssembly : Bool
  input? : Option String
  deriving DecidableEq, Inhabited, Repr

namespace Choices

def none : Choices :=
  ⟨.none, false, false, .none, false, .none⟩

/-- Adds an option that has not been given yet. A path is never empty. -/
def set (chosen : Choices) (value : String) : Setting → Option Choices
  | .mode =>
    if chosen.mode?.isSome then .none
    else (modeOfName? value).map fun mode => { chosen with mode? := some mode }
  | .jsonErrors => if chosen.jsonErrors then .none else some { chosen with jsonErrors := true }
  | .json => if chosen.json then .none else some { chosen with json := true }
  | .output =>
    if chosen.output?.isSome || value.isEmpty then .none
    else some { chosen with output? := some value }
  | .emitAssembly =>
    if chosen.emitAssembly then .none else some { chosen with emitAssembly := true }

def name (chosen : Choices) (path : String) : Option Choices :=
  if chosen.input?.isSome || path.isEmpty then .none
  else some { chosen with input? := some path }

end Choices

/-- What an argument looks like. A hyphen alone is plain. -/
inductive Word
  | marker
  | long (name : String) (value? : Option String)
  | short (letter : Char) (attached : List Char)
  | plain
  deriving DecidableEq, Inhabited, Repr

def Word.ofArgument (argument : String) : Word :=
  match argument.toList with
  | ['-', '-'] => .marker
  | '-' :: '-' :: rest =>
    let name := String.ofList (rest.takeWhile (· != '='))
    match rest.dropWhile (· != '=') with
    | [] => .long name none
    | _ :: value => .long name (some (String.ofList value))
  | '-' :: letter :: attached => .short letter attached
  | _ => .plain

inductive Reading
  | refused
  | version
  | verb (chosen : Choices) (verb : Verb) (rest : List String)
  | finished (chosen : Choices)
  deriving DecidableEq, Inhabited, Repr

/-- A value attached to a short option may have an equals sign in front. -/
def attachedValue? : List Char → Option String
  | [] => none
  | '=' :: value => some (String.ofList value)
  | value => some (String.ofList value)

/-- The option an argument names, with the value attached to it. -/
def optionOf? (verb? : Option Verb) : Word → Option (Setting × Option String)
  | .long name value? => do
    let setting ← Setting.ofName? name
    if setting.isAllowed verb? then some (setting, value?) else none
  | .short letter attached =>
    if letter = 'o' ∧ Setting.output.isAllowed verb? then
      some (.output, attachedValue? attached)
    else none
  | _ => none

/-- Before any verb, the version may be asked for. -/
def asksVersion (verb? : Option Verb) (word : Word) : Bool :=
  match verb?, word with
  | none, .long "version" none => true
  | none, .short 'V' _ => true
  | _, _ => false

/-- Arguments behind the marker: none before a verb, and only the input file behind one. -/
def readPlain (verb? : Option Verb) (chosen : Choices) (arguments : List String) : Reading :=
  match verb? with
  | none => .refused
  | some _ =>
    match arguments.foldlM Choices.name chosen with
    | some chosen => .finished chosen
    | none => .refused

/-- The value of an option, attached or in the next argument, and the arguments behind it. An
option without value has the empty one. -/
def valueOf? (setting : Setting) (attached? : Option String) (rest : List String) :
    Option (String × List String) :=
  if setting.takesValue then
    match attached?, rest with
    | some value, rest => some (value, rest)
    | none, value :: rest => if Word.ofArgument value = .plain then some (value, rest) else none
    | none, [] => none
  else if attached?.isNone then some ("", rest)
  else none

theorem length_le_of_valueOf? {setting : Setting} {attached? : Option String}
    {rest left : List String} {value : String}
    (h : valueOf? setting attached? rest = some (value, left)) : left.length ≤ rest.length := by
  rw [valueOf?.eq_def] at h
  split at h
  · split at h
    · simp_all
    · split at h <;> simp_all
    · cases h
  · split at h <;> simp_all

def read (verb? : Option Verb) (chosen : Choices) : List String → Reading
  | [] => .finished chosen
  | argument :: rest =>
    match Word.ofArgument argument with
    | .marker => readPlain verb? chosen rest
    | .plain =>
      match verb? with
      | none =>
        match Verb.ofName? argument with
        | some verb => .verb chosen verb rest
        | none => .refused
      | some _ =>
        match chosen.name argument with
        | some chosen => read verb? chosen rest
        | none => .refused
    | word =>
      if asksVersion verb? word then .version
      else
        match optionOf? verb? word with
        | none => .refused
        | some (setting, attached?) =>
          match _ : valueOf? setting attached? rest with
          | none => .refused
          | some (value, left) =>
            match chosen.set value setting with
            | some chosen => read verb? chosen left
            | none => .refused
termination_by arguments => arguments.length
decreasing_by
  · simp
  · exact Nat.lt_succ_of_le (length_le_of_valueOf? ‹_›)

inductive Job
  | lex (json : Bool)
  | parse (json : Bool)
  | run
  | build (output? : Option String) (emitAssembly : Bool)
  | check
  deriving DecidableEq, Inhabited, Repr

structure Invocation where
  mode : Mode
  jsonErrors : Bool
  job : Job
  input : String
  deriving DecidableEq, Inhabited, Repr

def Job.ofVerb (chosen : Choices) : Verb → Job
  | .lex => .lex chosen.json
  | .parse => .parse chosen.json
  | .run => .run
  | .build => .build chosen.output? chosen.emitAssembly
  | .check => .check

inductive Request
  | version
  | invoke (invocation : Invocation)
  deriving DecidableEq, Inhabited, Repr

/-- What the arguments ask for, unless they break a rule. -/
def Request.ofArguments? (arguments : List String) : Option Request :=
  match read none .none arguments with
  | .version => some .version
  | .verb before verb rest =>
    match read (some verb) .none rest with
    | .finished after => do
      let input ← after.input?
      let mode := (after.mode?.or before.mode?).getD .pattern
      return .invoke ⟨mode, before.jsonErrors || after.jsonErrors, .ofVerb after verb, input⟩
    | _ => none
  | _ => none

end StraightLine.Command
