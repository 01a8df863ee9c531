import NibblePascal.Text.WordChar
import NibblePascal.Token.Basic

/-!
# Tokens of a line

A line is cut into tokens from left to right.  At each place the patterns of the table
`patterns` are tried in order and the first that fits gives the token; a character that no
pattern fits is a token of its own.  Blanks at the end of the line are dropped.

A keyword has to end at a word boundary.  With *legacy* keywords that rule is off: any name
that begins like a keyword is cut after it.

Lengths count characters, so that a token always ends between two of them.  Lengths in bytes, by
which an encoded line would be cut, and that they end at the same places, are left out.
-/

namespace NibblePascal

/-- How the text of a kind of token looks. -/
inductive Pattern
  /-- A word that ends at a word boundary. -/
  | word (letters : List Char)
  /-- A fixed sign. -/
  | sign (chars : List Char)
  /-- The name of a width, a word. -/
  | typeName
  /-- Digits, `$` and hexadecimal digits, `%` and binary digits, or a quoted character. -/
  | number
  /-- Anything between quotes. -/
  | text
  /-- A letter or underscore and the word characters after it. -/
  | name
  /-- Spaces and tabs. -/
  | blanks
  /-- Two slashes and the rest of the line. -/
  | comment
  deriving DecidableEq, Repr, Inhabited

/-- The kinds of tokens with their patterns, in the order in which they are tried. -/
def patterns : List (Kind × Pattern) :=
  [(.comment, .comment),
   (.kwBegin, .word "begin".toList),
   (.kwEnd, .word "end".toList),
   (.kwAsm, .word "asm".toList),
   (.kwVar, .word "var".toList),
   (.kwConst, .word "const".toList),
   (.kwFor, .word "for".toList),
   (.kwTo, .word "to".toList),
   (.kwDownto, .word "downto".toList),
   (.kwWhile, .word "while".toList),
   (.kwIf, .word "if".toList),
   (.kwThen, .word "then".toList),
   (.kwElse, .word "else".toList),
   (.kwRepeat, .word "repeat".toList),
   (.kwUntil, .word "until".toList),
   (.kwOdd, .word "odd".toList),
   (.kwProcedure, .word "procedure".toList),
   (.kwDo, .word "do".toList),
   (.kwCall, .word "call".toList),
   (.kwInp, .word "inp".toList),
   (.kwOutp, .word "outp".toList),
   (.kwHi, .word "hi".toList),
   (.kwLo, .word "lo".toList),
   (.kwInc, .word "inc".toList),
   (.kwDec, .word "dec".toList),
   (.kwAnd, .word "and".toList),
   (.kwOr, .word "or".toList),
   (.kwNop, .word "nop".toList),
   (.lparen, .sign ['(']),
   (.rparen, .sign [')']),
   (.lbracket, .sign ['[']),
   (.rbracket, .sign [']']),
   (.lcurly, .sign ['\x7b']),
   (.rcurly, .sign ['\x7d']),
   (.typeName, .typeName),
   (.number, .number),
   (.text, .text),
   (.semicolon, .sign [';']),
   (.comma, .sign [',']),
   (.period, .sign ['.']),
   (.assign, .sign [':', '=']),
   (.colon, .sign [':']),
   (.le, .sign ['<', '=']),
   (.ge, .sign ['>', '=']),
   (.lt, .sign ['<']),
   (.gt, .sign ['>']),
   (.eq, .sign ['=']),
   (.hash, .sign ['#']),
   (.plus, .sign ['+']),
   (.minus, .sign ['-']),
   (.star, .sign ['*']),
   (.slash, .sign ['/']),
   (.percent, .sign ['%']),
   (.ampersand, .sign ['&']),
   (.pipe, .sign ['|']),
   (.caret, .sign ['^']),
   (.kwShr, .word "shr".toList),
   (.kwShl, .word "shl".toList),
   (.name, .name),
   (.blanks, .blanks)]

/-- A decimal digit. -/
def isDigit (c : Char) : Bool := '0' ≤ c && c ≤ '9'

/-- A hexadecimal digit, in either case. -/
def isHexDigit (c : Char) : Bool :=
  isDigit c || ('a' ≤ c && c ≤ 'f') || ('A' ≤ c && c ≤ 'F')

/-- A binary digit. -/
def isBinaryDigit (c : Char) : Bool := c == '0' || c == '1'

/-- A letter of the basic alphabet. -/
def isLetter (c : Char) : Bool := ('a' ≤ c && c ≤ 'z') || ('A' ≤ c && c ≤ 'Z')

/-- The length of a word at the start of a text, if it ends at a word boundary. -/
def wordLength? (legacy : Bool) (letters cs : List Char) : Option Nat :=
  if letters.isPrefixOf cs then
    match cs.drop letters.length with
    | c :: _ => if !legacy && isWordChar c then none else some letters.length
    | [] => some letters.length
  else none

/-- The length of a mark and the digits after it, of which there has to be one. -/
def markedLength? (isDigit : Char → Bool) (cs : List Char) : Option Nat :=
  match (cs.takeWhile isDigit).length with
  | 0 => none
  | n + 1 => some (n + 2)

/-- The length of a number at the start of a text. -/
def numberLength? : List Char → Option Nat
  | [] => none
  | c :: cs =>
      if isDigit c then some ((cs.takeWhile isDigit).length + 1)
      else if c == '$' then markedLength? isHexDigit cs
      else if c == '%' then markedLength? isBinaryDigit cs
      else if c == '\'' then
        match cs with
        | d :: '\'' :: _ => if d == '\'' then none else some 3
        | _ => none
      else none

/-- The length of a quoted text at the start of a text. -/
def quotedLength? : List Char → Option Nat
  | '\'' :: cs => (cs.findIdx? (· == '\'')).map (· + 2)
  | _ => none

/-- The length of a name at the start of a text. -/
def nameLength? : List Char → Option Nat
  | c :: cs =>
      if c == '_' || isLetter c then some ((cs.takeWhile isWordChar).length + 1) else none
  | [] => none

/-- The length of the spaces and tabs at the start of a text. -/
def blanksLength? (cs : List Char) : Option Nat :=
  match (cs.takeWhile fun c => c == ' ' || c == '\t').length with
  | 0 => none
  | n + 1 => some (n + 1)

/-- The length of the piece at the start of a text that a pattern fits. -/
def Pattern.length? (legacy : Bool) (pattern : Pattern) (cs : List Char) : Option Nat :=
  match pattern with
  | word letters => wordLength? legacy letters cs
  | sign chars => if chars.isPrefixOf cs then some chars.length else none
  | typeName =>
      ["nibble", "byte", "word"].findSome? fun w => wordLength? legacy w.toList cs
  | number => numberLength? cs
  | text => quotedLength? cs
  | name => nameLength? cs
  | blanks => blanksLength? cs
  | comment => if ['/', '/'].isPrefixOf cs then some cs.length else none

/-- The kind and the length of the token at the start of a text. -/
def firstToken (legacy : Bool) (cs : List Char) : Kind × Nat :=
  match patterns.findSome? fun p => (p.2.length? legacy cs).map fun n => (p.1, n) with
  | some found => found
  | none => (.unknown, 1)

/-- At most `count` tokens of a text, up to the blanks at its end. -/
def scan (legacy : Bool) (pos : Pos) : Nat → List Char → List Token
  | 0, _ => []
  | count + 1, cs =>
      if isBlankText cs then []
      else
        let (kind, n) := firstToken legacy cs
        ⟨kind, String.ofList (cs.take n), pos⟩ :: scan legacy pos count (cs.drop n)

/-- The tokens of a line.  No token is empty, so there are not more of them than
characters. -/
def scanLine (legacy : Bool) (pos : Pos) (line : List Char) : List Token :=
  scan legacy pos line.length line

end NibblePascal
