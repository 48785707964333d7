import Reckoner.CommandLine.Options

/-!
# Reading the arguments

The program has its arguments read by a library. The reader here takes that one's place where the
program is run, for the options that there are, and no theorem is about it: what is proved holds
of all options, however they were come by. The library's texts of help and misuse are left out.

Arguments are read from left to right. A lone `-` and everything after `--` are operands, of which
there is at most one; no option may be given twice. Short options may be written together, and the
value of `-p` may follow it directly, after `=`, or as the next argument.
-/

namespace Reckoner.CommandLine

-- Powers of natural numbers are the ones of the core library here, whatever else is imported.
attribute [local instance (high)] instPowNat

/-- The greatest number that the precision is read as. -/
def maxPrecision : Nat := 2 ^ (64 : Nat) - 1

/-- A natural number in decimal, with or without a plus in front. -/
def natural? (text : String) : Option Nat :=
  let digits :=
    match text.toList with
    | '+' :: rest => rest
    | cs => cs
  if digits.isEmpty || !digits.all Char.isDigit then none
  else
    let n := Nat.ofDigitChars 10 digits 0
    if n ≤ maxPrecision then some n else none

namespace Options

/-- Each option may be given once; a second time is refused. -/
def setFile? (o : Options) : Option Options :=
  if o.file then none else some { o with file := true }

def setNoConstants? (o : Options) : Option Options :=
  if o.noConstants then none else some { o with noConstants := true }

def setPrecision? (o : Options) (value : String) : Option Options :=
  match o.precision, natural? value with
  | none, some n => some { o with precision := some n }
  | _, _ => none

def setOperand? (o : Options) (value : String) : Option Options :=
  match o.operand with
  | none => some { o with operand := some value }
  | some _ => none

end Options

/-- What an argument, or a part of one, does to the options read so far. -/
inductive Effect where
  | options (o : Options)
  /-- The next argument is the precision. -/
  | awaitPrecision (o : Options)
  | stop (r : Request)

/-- The effect of the letters of a cluster such as `-fp2`. -/
def readCluster? (o : Options) : List Char → Option Effect
  | [] => some (.options o)
  | 'f' :: rest => o.setFile?.bind fun o => readCluster? o rest
  | 'p' :: [] => some (.awaitPrecision o)
  | 'p' :: '=' :: value => (o.setPrecision? (String.ofList value)).map .options
  | 'p' :: value => (o.setPrecision? (String.ofList value)).map .options
  | 'V' :: _ => some (.stop .version)
  | 'h' :: _ => some (.stop .help)
  | _ => none

/-- The effect of a long option, without its dashes; only `--precision` takes a value. -/
def readLong? (o : Options) (name : List Char) : Option Effect :=
  let (key, value) := (name.takeWhile (· != '='), name.dropWhile (· != '='))
  match String.ofList key, value with
  | "file", [] => o.setFile?.map .options
  | "no-constants", [] => o.setNoConstants?.map .options
  | "precision", [] => some (.awaitPrecision o)
  | "precision", _ :: value => (o.setPrecision? (String.ofList value)).map .options
  | "version", [] => some (.stop .version)
  | "help", [] => some (.stop .help)
  | _, _ => none

/-- The effect of one argument in front of `--`. -/
def readArgument? (o : Options) (argument : String) : Option Effect :=
  match argument.toList with
  | '-' :: '-' :: name => readLong? o name
  | '-' :: c :: rest => readCluster? o (c :: rest)
  | _ => (o.setOperand? argument).map .options

/-- The request that arguments make, none if they are misused. -/
def read? (o : Options) : List String → Option Request
  | [] => some (.run o)
  | "--" :: operands => (operands.foldlM Options.setOperand? o).map .run
  | argument :: rest =>
    match readArgument? o argument with
    | none => none
    | some (.stop request) => some request
    | some (.options o) => read? o rest
    | some (.awaitPrecision o) =>
      match rest with
      | [] => none
      | value :: rest => (o.setPrecision? value).bind fun o => read? o rest

end Reckoner.CommandLine
