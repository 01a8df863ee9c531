import NibblePascal.Settings.Scalar

/-!
# Entries of a settings file

A settings file is a mapping, with an entry `key: value` in every row.

* A row `---` may stand before the entries and a row `...` after them; blank rows and comments
  may stand anywhere.  A comment begins with `#`, where no text is or behind a gap.
* All keys begin at the same column, with no tab before them.  The colon of a key is followed
  by a gap and stands at most `keyReach` characters behind its start.
* A value is a text behind the colon, or in rows below that are indented more than the keys.

`entries?` reads the entries of a text.
-/

namespace NibblePascal.Settings

/-- A value of a settings file. -/
inductive Value
  | plain (text : String)
  | quoted (text : String)
  /-- A value that is not a text. -/
  | other
  deriving DecidableEq, Repr, Inhabited

/-! ### Keys and values -/

/-- How far the colon of a key may stand behind its start. -/
def keyReach : Nat := 1024

/-- Whether something else than a plain text begins here. -/
def isIndicator (cs : List Char) : Bool :=
  match cs with
  | [] => false
  | c :: rest =>
      [',', '[', ']', '\x7b', '\x7d', '&', '*', '!', '|', '>', '%', '@', '\x60'].contains c
        || (['-', '?', ':'].contains c && beginsGap rest)

/-- A key, and the rest of its row from its colon on. -/
def keyPart? : List Char → Option (List Char × List Char)
  | '\'' :: cs =>
      match singleQuoted [] cs with
      | (key, .closed rest) => some (key, rest.dropWhile isGap)
      | _ => none
  | '"' :: cs =>
      match doubleQuoted? [] cs with
      | some (key, .closed rest) => some (key, rest.dropWhile isGap)
      | _ => none
  | cs =>
      match plainPart [] cs with
      | (key, .colon rest) => if isIndicator cs then none else some (key, rest)
      | _ => none

/-- A key, and the rest of its row behind its colon. -/
def key? (cs : List Char) : Option (String × List Char) :=
  match keyPart? cs with
  | some (key, ':' :: rest) =>
      if beginsGap rest && cs.length - (rest.length + 1) ≤ keyReach then
        some (String.ofList key, rest)
      else none
  | _ => none

/-- Whether a row holds something in brackets. -/
def isBracketed (row : Row) : Bool :=
  let last := (row.chars.reverse.dropWhile isGap).head?
  (row.chars.head? == some '[' && last == some ']')
    || (row.chars.head? == some '\x7b' && last == some '\x7d')

/-- The value of a quoted text, which nothing but a comment may follow in its row. -/
def quotedValue? (reading : Option Reading) : Option (Value × List Row) :=
  match reading with
  | some (text, left, after) =>
      if left.isFinished then some (.quoted (String.ofList text), after) else none
  | none => none

/-- The value that begins with a row, of a key that begins at a column, with the rows after
it. -/
def value? (column : Nat) (row : Row) (rest : List Row) : Option (Value × List Row) :=
  match row.chars with
  | '\'' :: cs =>
      quotedValue? (quotedText? (some ∘ singleQuoted []) { row with chars := cs } rest)
  | '"' :: cs => quotedValue? (quotedText? (doubleQuoted? []) { row with chars := cs } rest)
  | cs =>
      if isBracketed row then some (.other, rest)
      else if isIndicator cs then none
      else (plainText? (column + 1) row rest).map fun (text, after) =>
        (.plain (String.ofList text), after)

/-! ### Rows with content -/

/-- The rows from the next one with content on.  A tab cannot stand before content, even if it
is a comment. -/
def nextContent? : List Row → Option (List Row)
  | [] => some []
  | row :: rest =>
      match row.content.chars with
      | [] | '#' :: _ => nextContent? rest
      | '\t' :: _ => none
      | _ => some (row :: rest)

/-- The value behind a colon: in the same row, or in a row below that is indented more than its
key.  If there is none it is an empty text. -/
def valueAfter? (column : Nat) (row : Row) (rest : List Row) : Option (Value × List Row) :=
  if row.isFinished then
    match nextContent? rest with
    | none => none
    | some [] => some (.plain "", [])
    | some (below :: rest) =>
        if below.column ≤ column then some (.plain "", below :: rest)
        else value? column below.content rest
  else value? column { row with chars := row.chars.dropWhile isGap } rest

/-- Whether a row may follow the end of the settings. -/
def isAfterEnd (row : Row) : Bool :=
  (row.isMark '.' && row.afterMark.isFinished)
    || (row.content.isFinished && row.content.chars.head? != some '\t')

/-- The entries of at most `n` rows, with keys that begin at a column. -/
def entriesAt? (column : Nat) : Nat → List Row → Option (List (String × Value))
  | 0, _ => some []
  | n + 1, rows => do
      match ← nextContent? rows with
      | [] => return []
      | row :: rest =>
          if row.isMark '.' then
            if (row :: rest).all isAfterEnd then return [] else none
          else if row.isMark '-' || row.column != column then none
          else
            let (key, left) ← key? row.content.chars
            let (value, after) ← valueAfter? column { row with chars := left } rest
            return (key, value) :: (← entriesAt? column n after)

/-- The entries of rows behind the row that marks the start. -/
def markedEntries? (rows : List Row) : Option (List (String × Value)) := do
  match ← nextContent? rows with
  | [] => return []
  | row :: rest => entriesAt? row.column (rest.length + 1) (row :: rest)

/-- The entries of a settings file.  A byte order mark before the text counts as a space. -/
def entries? (text : String) : Option (List (String × Value)) :=
  let cs := match text.toList with
    | '\uFEFF' :: cs => ' ' :: cs
    | cs => cs
  if cs.all isPrintable then do
    match ← nextContent? (rows cs) with
    | [] => return []
    | row :: rest =>
        if row.isMark '-' then
          if row.afterMark.isFinished then markedEntries? rest else none
        else if row.isMark '.' then none
        else markedEntries? (row :: rest)
  else none

end NibblePascal.Settings
