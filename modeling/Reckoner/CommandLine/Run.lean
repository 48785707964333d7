import Reckoner.Calculator.Evaluate
import Reckoner.CommandLine.Arguments
import Reckoner.Text.Lines

/-!
# Running the program

The statements come from the operand, from a file or from standard input, one a line. Each line is
trimmed and the empty ones are passed over; the others are evaluated one after the other in the same
environment. Values go to standard output and failures to standard error, and the exit code tells
whether there were any failures. A run ends early if the octets cannot be read on, or with a panic
if a value is to be printed with more places than there can be.

What the runtime reports of a panic and the log that the environment variable `CALC_LOG` turns on
are not part of an outcome; neither are faults of writing.
-/

namespace Reckoner.CommandLine

/-- How the program ends. -/
inductive Ending where
  | success
  | failure
  /-- The arguments are not understood. -/
  | misuse
  | panicked
  deriving DecidableEq, Repr

def Ending.exitCode : Ending → UInt32
  | success => 0
  | failure => 1
  | misuse => 2
  | panicked => 101

/-- What the program leaves behind. -/
structure Outcome where
  ending : Ending := .success
  out : String := ""
  err : String := ""
  deriving DecidableEq

namespace Outcome

def exitCode (o : Outcome) : UInt32 :=
  o.ending.exitCode

/-- An outcome with the text of a value printed in front. -/
def withValue (text : String) (rest : Outcome) : Outcome :=
  { rest with out := "= " ++ text ++ "\n" ++ rest.out }

/-- An outcome with the message of a failure printed in front. The run does not succeed then. -/
def withFailure (message : String) (rest : Outcome) : Outcome where
  ending := if rest.ending = .panicked then .panicked else .failure
  out := rest.out
  err := "Error: " ++ message ++ "\n" ++ rest.err

/-- An outcome of a run that then finds that it cannot read on. -/
def brokenOff (message : String) (o : Outcome) : Outcome :=
  if o.ending = .panicked then o
  else { o with ending := .failure, err := o.err ++ "Error: " ++ message ++ "\n" }

end Outcome

/-- What is read from a file or from standard input: octets, and the message of the fault behind
them if they do not just end. -/
structure Input where
  octets : List UInt8
  fault : Option String := none

/-- What a path leads to. -/
inductive FileContent where
  | missing
  | opened (input : Input)

namespace FileContent

def octets (bs : List UInt8) : FileContent :=
  .opened { octets := bs }

/-- A directory can be opened, but nothing can be read from it. -/
def directory : FileContent :=
  .opened { octets := [], fault := "Is a directory (os error 21)" }

end FileContent

def versionText : String := "calc-cli 0.1.0\n"

def Options.calculator (o : Options) : Calculator :=
  if o.noConstants then { constants := .empty } else {}

/-- The text of a value, with a fixed number of places if a precision is asked for. There is none if
the precision is too large. -/
def valueText? (precision : Option Nat) (x : Float) : Option String :=
  match precision with
  | some places => Numeral.fixed? places x
  | none => some (Numeral.plain x)

/-- Evaluates lines one after the other: what is printed, and the environment that is left. -/
def evaluateLines (c : Calculator) (precision : Option Nat) (env : Environment) :
    List (List Char) → Outcome × Environment
  | [] => ({}, env)
  | line :: lines =>
    let statement := Text.trim line
    if statement.isEmpty then evaluateLines c precision env lines
    else
      match (c.evaluate (String.ofList statement)).run env with
      | .ok x after =>
        match valueText? precision x with
        | some text =>
          let (rest, left) := evaluateLines c precision after lines
          (rest.withValue text, left)
        | none => ({ ending := .panicked }, after)
      | .error failure after =>
        let (rest, left) := evaluateLines c precision after lines
        (rest.withFailure failure.message, left)

/-- Evaluates lines in an environment that starts empty. -/
def runLines (o : Options) (lines : List (List Char)) : Outcome :=
  (evaluateLines o.calculator o.precision {} lines).1

/-- Evaluates the lines of an input. The line that a fault cuts short is lost. -/
def runInput (o : Options) (input : Input) : Outcome :=
  match input.fault with
  | none => runLines o (Text.lines input.octets)
  | some message => (runLines o (Text.endedLines input.octets)).brokenOff message

/-- Evaluates the statements from their source. The files and standard input are looked at only
where the statements come from them. -/
def runOptions (o : Options) (lookUp : String → FileContent) (input : Input) : Outcome :=
  match o.source with
  | .operand statement => runLines o [statement.toList]
  | .standardInput => runInput o input
  | .unnamedFile => { ending := .failure, err := "--file needs the path of a file to read.\n" }
  | .file path =>
    match lookUp path with
    | .opened content => runInput o content
    | .missing =>
      { ending := .failure
        err := "Failed to read the input file '" ++ path ++
          "'. Perhaps this file does not exist?\n" }

/-- Does what is asked for; arguments that are not understood ask for nothing. -/
def respond (request : Option Request) (lookUp : String → FileContent) (input : Input) : Outcome :=
  match request with
  | none => { ending := .misuse }
  | some .version => { out := versionText }
  | some .help => {}
  | some (.run o) => runOptions o lookUp input

/-- The program, from its arguments to its outcome. -/
def run (args : List String) (lookUp : String → FileContent) (input : List UInt8) : Outcome :=
  respond (read? {} args) lookUp { octets := input }

end Reckoner.CommandLine
