import NibblePascal.Source.Position

/-!
# Tokens

A token is a piece of a source line with its kind and its position.  Blanks and comments are
tokens too; the reader of programs passes over them.
-/

namespace NibblePascal

/-- The kinds of tokens. -/
inductive Kind
  | comment
  | blanks
  | kwBegin
  | kwEnd
  | kwAsm
  | kwVar
  | kwConst
  | kwFor
  | kwTo
  | kwDownto
  | kwWhile
  | kwIf
  | kwThen
  | kwElse
  | kwRepeat
  | kwUntil
  | kwOdd
  | kwProcedure
  | kwDo
  | kwCall
  | kwInp
  | kwOutp
  | kwHi
  | kwLo
  | kwInc
  | kwDec
  | kwAnd
  | kwOr
  | kwNop
  | lparen
  | rparen
  | lbracket
  | rbracket
  | lcurly
  | rcurly
  /-- The name of a width. -/
  | typeName
  | number
  /-- A quoted text. -/
  | text
  | semicolon
  | comma
  | period
  | assign
  | colon
  | le
  | ge
  | lt
  | gt
  | eq
  | hash
  | plus
  | minus
  | star
  | slash
  | percent
  | ampersand
  | pipe
  | caret
  | kwShr
  | kwShl
  | name
  /-- A line of inline assembly. -/
  | asmLine
  /-- A character that begins no token. -/
  | unknown
  deriving DecidableEq, Repr, Inhabited

/-- A token. -/
structure Token where
  kind : Kind
  text : String
  pos : Pos
  deriving DecidableEq, Repr, Inhabited

/-- Tokens that mean nothing to a program. -/
def Token.isIgnorable (t : Token) : Bool := t.kind == .blanks || t.kind == .comment

end NibblePascal
