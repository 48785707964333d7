/-!
# Command-line options

What the arguments of the program ask for, and where the statements come from.
-/

namespace Reckoner.CommandLine

structure Options where
  /-- The operand is the path of a file of statements. -/
  file : Bool := false
  /-- The number of places to print results with. -/
  precision : Option Nat := none
  /-- Leave out the predefined constants. -/
  noConstants : Bool := false
  operand : Option String := none
  deriving DecidableEq, Repr

/-- What the arguments ask for. -/
inductive Request where
  | run (options : Options)
  | version
  | help
  deriving DecidableEq, Repr

/-- Where the statements come from. -/
inductive Source where
  | operand (statement : String)
  | file (path : String)
  | standardInput
  /-- A file is asked for, but no path is given. -/
  | unnamedFile

def Options.source (o : Options) : Source :=
  match o.operand, o.file with
  | some path, true => .file path
  | some statement, false => .operand statement
  | none, true => .unnamedFile
  | none, false => .standardInput

end Reckoner.CommandLine
