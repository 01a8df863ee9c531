import NibblePascal.Settings.Row
import NibblePascal.Token.Number

/-!
# Texts of a settings file

A text is plain or quoted, and it may go on over several rows.  The gaps around a break are no
part of it.

* `singleQuoted` and `doubleQuoted?` read the part of a quoted text that stands in a row, and
  `quotedText?` all of it;
* `plainPart` reads the part of a plain text that stands in a row, and `plainText?` all of it.
  A plain text ends before a comment, before a colon that a gap follows, and before a row that
  is not indented enough.
-/

namespace NibblePascal.Settings

/-! ### Quoted texts -/

/-- How the part of a quoted text in a row ends. -/
inductive QuoteEnd
  /-- With the closing quote, before the rest of the row. -/
  | closed (rest : List Char)
  /-- With the row. -/
  | broken
  /-- With a backslash at the end of the row. -/
  | escaped
  deriving DecidableEq, Repr, Inhabited

/-- The part of a text in single quotes in a row, after a gap given in reverse.  Two quotes
stand for one. -/
def singleQuoted (gap : List Char) : List Char → List Char × QuoteEnd
  | [] => ([], .broken)
  | '\'' :: '\'' :: cs =>
      let (text, stop) := singleQuoted [] cs
      (gap.reverse ++ '\'' :: text, stop)
  | '\'' :: cs => (gap.reverse, .closed cs)
  | c :: cs =>
      if isGap c then singleQuoted (c :: gap) cs
      else
        let (text, stop) := singleQuoted [] cs
        (gap.reverse ++ c :: text, stop)

/-- The character that a letter stands for behind a backslash. -/
def escape? (c : Char) : Option Char :=
  [('0', '\x00'), ('a', '\x07'), ('b', '\x08'), ('t', '\t'), ('\t', '\t'), ('n', '\n'),
   ('v', '\x0b'), ('f', '\x0c'), ('r', '\r'), ('e', '\x1b'), (' ', ' '), ('"', '"'),
   ('/', '/'), ('\\', '\\'), ('N', '\x85'), ('_', '\xa0'), ('L', '\u2028'),
   ('P', '\u2029')].lookup c

/-- The number of hexadecimal digits that follow a letter behind a backslash. -/
def escapeDigits (c : Char) : Nat :=
  if c == 'x' then 2 else if c == 'u' then 4 else if c == 'U' then 8 else 0

/-- The character of an escape: its letter, and the characters that follow it. -/
def escapedChar? (c : Char) (cs : List Char) : Option Char :=
  if escapeDigits c == 0 then escape? c
  else if cs.length < escapeDigits c then none
  else
    match digitsValue? 0x100000000 16 0 (cs.take (escapeDigits c)) with
    | some n => if n.isValidChar then some (Char.ofNat n) else none
    | none => none

/-- The part of a text in double quotes in a row, after a gap given in reverse. -/
def doubleQuoted? (gap : List Char) : List Char → Option (List Char × QuoteEnd)
  | [] => some ([], .broken)
  | ['\\'] => some (gap.reverse, .escaped)
  | '\\' :: c :: cs => do
      let escaped ← escapedChar? c cs
      let (text, stop) ← doubleQuoted? [] (cs.drop (escapeDigits c))
      return (gap.reverse ++ escaped :: text, stop)
  | c :: cs => do
      if c == '"' then return (gap.reverse, .closed cs)
      else if isGap c then doubleQuoted? (c :: gap) cs
      else
        let (text, stop) ← doubleQuoted? [] cs
        return (gap.reverse ++ c :: text, stop)
termination_by cs => cs.length

/-- A text with the rest of the row that it ends in and the rows after that. -/
abbrev Reading := List Char × Row × List Row

/-- Go on after the part of a quoted text in a row; `next` reads the rows after it, behind a
break that counts or behind one that does not. -/
def QuoteEnd.resume (stop : QuoteEnd) (row : Row) (rest : List Row)
    (next : Option Break → Option Reading) : Option Reading :=
  match stop with
  | closed cs => some ([], { row with chars := cs }, rest)
  | broken => row.ending.bind fun b => next (some b)
  | escaped => row.ending.bind fun _ => next none

/-- The rest of a quoted text from a row on, behind a first break and others; `part` reads its
part of a row.  A row that marks the start or the end of the settings cannot stand in it. -/
def quotedRows? (part : List Char → Option (List Char × QuoteEnd)) :
    Option Break → List Break → List Row → Option Reading
  | _, _, [] => none
  | first, more, row :: rest =>
      if row.isEmpty then
        match row.ending with
        | some b => quotedRows? part first (more ++ [b]) rest
        | none => none
      else if row.isMark '-' || row.isMark '.' then none
      else do
        let (text, stop) ← part (row.chars.dropWhile isGap)
        let (tail, left, after) ← stop.resume row rest fun first =>
          quotedRows? part first [] rest
        return (joinBreaks first more ++ text ++ tail, left, after)

/-- A quoted text that begins in a row behind its opening quote. -/
def quotedText? (part : List Char → Option (List Char × QuoteEnd)) (row : Row)
    (rest : List Row) : Option Reading := do
  let (text, stop) ← part row.chars
  let (tail, left, after) ← stop.resume row rest fun first => quotedRows? part first [] rest
  return (text ++ tail, left, after)

/-! ### Plain texts -/

/-- How the part of a plain text in a row ends. -/
inductive PlainEnd
  /-- Before a colon that a gap follows, with the row from the colon on. -/
  | colon (rest : List Char)
  /-- Before a comment. -/
  | comment
  /-- With the row. -/
  | broken
  deriving DecidableEq, Repr, Inhabited

/-- The part of a plain text in a row, after a gap given in reverse. -/
def plainPart (gap : List Char) : List Char → List Char × PlainEnd
  | [] => ([], .broken)
  | c :: cs =>
      if isGap c then plainPart (c :: gap) cs
      else if c == '#' && !gap.isEmpty then ([], .comment)
      else if c == ':' && beginsGap cs then ([], .colon (c :: cs))
      else
        let (text, stop) := plainPart [] cs
        (gap.reverse ++ c :: text, stop)

/-- Go on after the part of a plain text in a row; `next` reads the rows after it.  A plain
value cannot be followed by a colon. -/
def PlainEnd.resume (stop : PlainEnd) (row : Row) (rest : List Row)
    (next : Break → Option (List Char × List Row)) : Option (List Char × List Row) :=
  match stop, row.ending with
  | colon _, _ => none
  | comment, _ => some ([], rest)
  | broken, some b => next b
  | broken, none => some ([], rest)

/-- The rest of a plain text from a row on, behind a first break and others, with the rows
after it.  A tab cannot stand where a row has to be indented. -/
def plainRows? (indent : Nat) : Break → List Break → List Row → Option (List Char × List Row)
  | _, _, [] => some ([], [])
  | first, more, row :: rest =>
      if row.column < indent && row.content.chars.head? == some '\t' then none
      else if row.isEmpty then
        match row.ending with
        | some b => plainRows? indent first (more ++ [b]) rest
        | none => some ([], [])
      else if row.column < indent then some ([], row :: rest)
      else if row.isFinished then some ([], rest)
      else do
        let (text, stop) := plainPart [] (row.chars.dropWhile isGap)
        let (tail, after) ← stop.resume row rest fun b => plainRows? indent b [] rest
        return (joinBreaks (some first) more ++ text ++ tail, after)

/-- A plain text that begins in a row and goes on in rows indented by `indent` or more, with
the rows after it. -/
def plainText? (indent : Nat) (row : Row) (rest : List Row) :
    Option (List Char × List Row) := do
  let (text, stop) := plainPart [] row.chars
  let (tail, after) ← stop.resume row rest fun b => plainRows? indent b [] rest
  return (text ++ tail, after)

end NibblePascal.Settings
