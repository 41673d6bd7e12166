import Dalvik.CommandLine

/-!
The program: standard input and output around the command line.
-/

open Dalvik

/-- Reads the listing from standard input, which is the only input there is, and writes the optimized
class to standard output. -/
def main (words : List String) : IO UInt32 := do
  match CommandLine.Options.read words with
  | .error e =>
    IO.eprintln e.message
    return 2
  | .ok o =>
    if o.input ≠ "/dev/stdin" then
      IO.eprint (CommandLine.failure ("could not read " ++ o.input) "not a standard stream")
      return 1
    else if o.output.any (· ≠ "/dev/stdout") then
      IO.eprint (CommandLine.failure ("could not write " ++ o.output.getD "") "not a standard stream")
      return 1
    else
      let stdin ← IO.getStdin
      let mut listing := ""
      let mut line ← stdin.getLine
      while !line.isEmpty do
        listing := listing ++ line
        line ← stdin.getLine
      let result := CommandLine.run o listing
      IO.eprint result.report
      IO.print result.listing
      return result.code.toUInt32
