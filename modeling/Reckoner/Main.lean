import Reckoner.CommandLine.Run

/-!
# The program

Fetches the file or the input that the arguments ask for, and prints what `CommandLine.respond`
answers.
-/

open Reckoner CommandLine

/-- What reading gives. Octets in front of a fault are not kept. -/
def readInput (read : IO ByteArray) : IO Input := do
  match ← read.toBaseIO with
  | .error fault => return { octets := [], fault := toString fault }
  | .ok content => return { octets := content.toList }

/-- What a path leads to. -/
def readPath (path : String) : IO FileContent := do
  match ← (IO.FS.Handle.mk path .read).toBaseIO with
  | .error _ => return .missing
  | .ok handle => return .opened (← readInput handle.readBinToEnd)

def main (args : List String) : IO UInt32 := do
  let request := read? {} args
  let source :=
    match request with
    | some (.run o) => some o.source
    | _ => none
  let file ←
    match source with
    | some (.file path) => readPath path
    | _ => pure .missing
  let input ←
    match source with
    | some .standardInput => readInput (← IO.getStdin).readBinToEnd
    | _ => pure { octets := [] }
  let outcome := respond request (fun _ => file) input
  (← IO.getStdout).putStr outcome.out
  (← IO.getStderr).putStr outcome.err
  return outcome.exitCode
