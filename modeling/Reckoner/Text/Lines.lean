import Reckoner.Text.Blank
import Reckoner.Text.Utf8

/-!
# Lines

Octets are cut at each line feed before they are decoded, so a fault in one line cannot reach the
next. A line feed ends a line: none follows the last one, unless octets do.
-/

namespace Reckoner.Text

def lineFeed : UInt8 := 0x0A

/-- The stretches of octets that line feeds end, and what stands behind the last of them. -/
def splitLines : List UInt8 → List (List UInt8)
  | [] => []
  | b :: bs =>
    if b = lineFeed then [] :: splitLines bs
    else
      match splitLines bs with
      | [] => [[b]]
      | line :: lines => (b :: line) :: lines

/-- The lines that octets write. -/
def lines (content : List UInt8) : List (List Char) :=
  (splitLines content).map Utf8.decode

/-- The lines that end within octets. -/
def endedLines (content : List UInt8) : List (List Char) :=
  (splitLines (content ++ [lineFeed])).dropLast.map Utf8.decode

end Reckoner.Text
