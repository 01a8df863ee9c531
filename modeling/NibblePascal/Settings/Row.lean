import NibblePascal.Text.Blank

/-!
# Rows of a settings file

* `isPrintable` tests for the characters that a settings file may hold;
* `rows` cuts a text into its rows, each with the break that ends it;
* `joinBreaks` is the text that stands for the breaks between two rows of one value: a single
  newline counts as a space, and of several the first counts for nothing.
-/

namespace NibblePascal.Settings

/-- The code points that a settings file may hold, as closed ranges in ascending order. -/
def printableRanges : List (Nat × Nat) :=
  [(0x9, 0xA), (0xD, 0xD), (0x20, 0x7E), (0x85, 0x85), (0xA0, 0xD7FF), (0xE000, 0xFFFD),
   (0x10000, 0x10FFFF)]

/-- A character that a settings file may hold. -/
def isPrintable (c : Char) : Bool := inRanges c.toNat printableRanges

/-- A space or a tab. -/
def isGap (c : Char) : Bool := c == ' ' || c == '\t'

/-- Whether a text is at its end or goes on with a gap. -/
def beginsGap (cs : List Char) : Bool := cs.head?.all isGap

/-- What ends a row. -/
inductive Break
  /-- A line feed, a carriage return, the two together, or a next line character. -/
  | newline
  /-- A line separator or a paragraph separator. -/
  | separator (c : Char)
  deriving DecidableEq, Repr, Inhabited

/-- The character that stands for a break. -/
def Break.char : Break → Char
  | newline => '\n'
  | separator c => c

/-- The break that a character makes. -/
def break? (c : Char) : Option Break :=
  if c == '\n' || c == '\r' || c == '\x85' then some .newline
  else if c == '\u2028' || c == '\u2029' then some (.separator c)
  else none

/-- The rest of a row and what ends it; the last row ends with the text. -/
structure Row where
  chars : List Char
  ending : Option Break
  deriving DecidableEq, Repr, Inhabited

/-- The rows of a text. -/
def rows : List Char → List Row
  | [] => [⟨[], none⟩]
  | '\r' :: '\n' :: cs => ⟨[], some .newline⟩ :: rows cs
  | c :: cs =>
      match break? c, rows cs with
      | some b, rest => ⟨[], some b⟩ :: rest
      | none, row :: rest => { row with chars := c :: row.chars } :: rest
      | none, [] => [⟨[c], none⟩]

/-- The text that stands for the breaks between two rows of one value: the first, if it
counts, and the others. -/
def joinBreaks : Option Break → List Break → List Char
  | some .newline, [] => [' ']
  | some (.separator c), more => c :: more.map Break.char
  | _, more => more.map Break.char

namespace Row

/-- The column where the content of a row begins. -/
def column (row : Row) : Nat := (row.chars.takeWhile (· == ' ')).length

/-- The row without the spaces before its content. -/
def content (row : Row) : Row := { row with chars := row.chars.dropWhile (· == ' ') }

/-- Whether nothing but a comment is left of the row. -/
def isFinished (row : Row) : Bool :=
  match row.chars.dropWhile isGap with
  | [] => true
  | c :: _ => c == '#'

/-- Whether the row is blank. -/
def isEmpty (row : Row) : Bool := row.chars.all isGap

/-- Whether the row begins with three times the same character, followed by a gap. -/
def isMark (mark : Char) (row : Row) : Bool :=
  [mark, mark, mark].isPrefixOf row.chars && beginsGap (row.chars.drop 3)

/-- What is left of a row that is a mark. -/
def afterMark (row : Row) : Row := { row with chars := row.chars.drop 3 }

end Row

end NibblePascal.Settings
