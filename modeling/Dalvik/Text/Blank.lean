/-!
White space in the sense of the Unicode property `White_Space`, and the cuts that are made along it:
trimming, splitting into words and splitting into lines.
-/

namespace Dalvik.Text

/-- The closed ranges of code points that have the property `White_Space`. -/
def blankRanges : List (Nat × Nat) :=
  [(0x09, 0x0D), (0x20, 0x20), (0x85, 0x85), (0xA0, 0xA0), (0x1680, 0x1680), (0x2000, 0x200A),
    (0x2028, 0x2029), (0x202F, 0x202F), (0x205F, 0x205F), (0x3000, 0x3000)]

/-- A character is blank when it has the property `White_Space`. -/
def isBlank (c : Char) : Bool :=
  blankRanges.any fun r => r.1 ≤ c.toNat && c.toNat ≤ r.2

/-- A text without the blanks at its end. -/
def trimEnd (s : List Char) : List Char :=
  (s.reverse.dropWhile isBlank).reverse

/-- A text without the blanks at its two ends. -/
def trim (s : List Char) : List Char :=
  trimEnd (s.dropWhile isBlank)

/-- The maximal runs of characters that are not blank, in order. `run` holds, reversed, the part of
the current run that has been passed already. -/
def wordsFrom (run : List Char) : List Char → List (List Char)
  | [] => if run.isEmpty then [] else [run.reverse]
  | c :: r =>
    if isBlank c then
      if run.isEmpty then wordsFrom [] r else run.reverse :: wordsFrom [] r
    else wordsFrom (c :: run) r

/-- The maximal runs of characters that are not blank, in order. -/
def words (s : List Char) : List (List Char) :=
  wordsFrom [] s

/-- Drops one carriage return from the end of a reversed line. -/
def dropReturn : List Char → List Char
  | '\r' :: r => r
  | s => s

/-- The lines of a text, each without its line feed and without a carriage return before that line
feed. What follows the last line feed is a line only if it is not empty. `run` holds, reversed, the
part of the current line that has been passed already. -/
def linesFrom (run : List Char) : List Char → List (List Char)
  | [] => if run.isEmpty then [] else [run.reverse]
  | c :: r => if c = '\n' then (dropReturn run).reverse :: linesFrom [] r else linesFrom (c :: run) r

/-- The lines of a text, without their ends. -/
def lines (s : List Char) : List (List Char) :=
  linesFrom [] s

end Dalvik.Text
