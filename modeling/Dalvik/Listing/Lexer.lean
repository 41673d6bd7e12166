import Dalvik.Text.Blank
import Dalvik.Text.Split

/-!
The pieces of a line of a listing: the part before a comment, operands between commas, and words. Text
between quotes, single or double, is passed over as a whole.
-/

namespace Dalvik.Listing

/-- Where a scanner of a line stands. -/
inductive Scan where
  | outside
  | inside (mark : Char)
  /-- Behind a backslash between quotes. -/
  | escaped (mark : Char)
  deriving DecidableEq, Repr

/-- Where the scanner stands after one more character. -/
def Scan.next : Scan → Char → Scan
  | outside, c => if c = '"' ∨ c = '\'' then inside c else outside
  | inside mark, c =>
    if c = '\\' then escaped mark else if c = mark then outside else inside mark
  | escaped mark, _ => inside mark

/-- A line up to the first number sign that is not quoted. -/
def dropCommentFrom (scan : Scan) : List Char → List Char
  | [] => []
  | c :: r =>
    if scan = .outside ∧ c = '#' then [] else c :: dropCommentFrom (scan.next c) r

/-- A line without its comment. -/
def dropComment (line : List Char) : List Char :=
  dropCommentFrom .outside line

/-- How far a character outside quotes opens or closes a bracket. -/
def bracketStep (c : Char) : Int :=
  if c = '\x7b' ∨ c = '[' then 1 else if c = '\x7d' ∨ c = ']' then -1 else 0

/-- The pieces between the commas that stand outside quotes and brackets. `run` holds, reversed, the
part of the current piece that has been passed already. -/
def piecesFrom (scan : Scan) (depth : Int) (run : List Char) : List Char → List (List Char)
  | [] => [Text.trim run.reverse]
  | c :: r =>
    if scan = .outside then
      if c = ',' ∧ depth = 0 then Text.trim run.reverse :: piecesFrom .outside 0 [] r
      else piecesFrom (scan.next c) (depth + bracketStep c) (c :: run) r
    else piecesFrom (scan.next c) depth (c :: run) r

/-- The operands in a text. A blank text has none, but between and beside commas an operand may be
empty. -/
def operands (s : List Char) : List (List Char) :=
  let pieces := piecesFrom .outside 0 [] s
  if pieces = [[]] then [] else pieces

/-- The operands in a text that are not empty. -/
def items (s : List Char) : List (List Char) :=
  (operands s).filter fun p => !p.isEmpty

/-- A character that a label can have in its name. -/
def isLabelChar (c : Char) : Bool :=
  c.isAlphanum || c = '_' || c = '$'

/-- The name of the label that is a whole text. -/
def labelName? (s : List Char) : Option String :=
  match s with
  | ':' :: name =>
    if name.isEmpty || !name.all isLabelChar then none else some (String.ofList name)
  | _ => none

/-- A space or a tab, the only blanks that matter to a `.catch` line. -/
def isGap (c : Char) : Bool := c = ' ' || c = '\t'

/-- A text without the gaps at its start. -/
def dropGap (s : List Char) : List Char := s.dropWhile isGap

/-- The label at the start of a text, by its name, and the rest. -/
def takeLabel? (s : List Char) : Option (String × List Char) :=
  match s with
  | ':' :: r =>
    let name := r.takeWhile isLabelChar
    if name.isEmpty then none else some (String.ofList name, r.dropWhile isLabelChar)
  | _ => none

/-- The parts of a `.catch` line: a type or the word for all, the two ends of the range, and the
handler. -/
structure CatchParts where
  type : List Char
  start : String
  stop : String
  handler : String

/-- Reads what stands in braces after the type of a `.catch` line, and the handler after them. -/
def readRange? (type : List Char) (s : List Char) : Option CatchParts := do
  let (start, s) ← takeLabel? (dropGap s)
  let s ← Text.dropLead? ['.', '.'] (dropGap s)
  let (stop, s) ← takeLabel? (dropGap s)
  let s ← Text.dropLead? ['\x7d'] (dropGap s)
  let (handler, s) ← takeLabel? (dropGap s)
  if s.isEmpty then some { type, start, stop, handler } else none

/-- Reads a `.catch` line. The last opening brace of the line ends the type, which has no gap inside
it and at least one before it. -/
def readCatch? (line : List Char) : Option CatchParts := do
  let s ← Text.dropLead? ".catch".toList line
  let (tail, head) ← Text.cutAt? ['\x7b'] s.reverse
  let type := (dropGap head).reverse
  if (dropGap type).length = type.length || (dropGap type).isEmpty || (dropGap type).any isGap then
    none
  else readRange? (dropGap type) tail.reverse

end Dalvik.Listing
