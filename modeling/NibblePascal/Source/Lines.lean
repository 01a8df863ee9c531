/-!
# Lines of a text

`splitLines` cuts a text at its line feeds.  A carriage return directly before a line feed
belongs to the line end; any other stays in its line.  A text that ends with a line feed has
no empty last line.
-/

namespace NibblePascal

/-- A reversed line without the carriage return at its end. -/
def dropReturn : List Char → List Char
  | '\r' :: rest => rest
  | line => line

/-- The lines of a text, the first one continuing the reversed line read so far. -/
def splitLinesFrom (line : List Char) : List Char → List (List Char)
  | [] => if line.isEmpty then [] else [line.reverse]
  | c :: rest =>
      if c == '\n' then (dropReturn line).reverse :: splitLinesFrom [] rest
      else splitLinesFrom (c :: line) rest

/-- The lines of a text. -/
def splitLines (text : List Char) : List (List Char) := splitLinesFrom [] text

/-- A text of lines, each ended by a line feed. -/
def joinLines (lines : List String) : String := String.join (lines.map (· ++ "\n"))

end NibblePascal
