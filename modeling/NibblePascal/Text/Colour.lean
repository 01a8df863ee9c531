/-!
# Terminal styles

A style is switched on and off by an escape code.  `Style.paint` wraps a text in both.
Switching any colour off restores the default colour, so nested colours need only one end.
-/

namespace NibblePascal

/-- A colour or a face of terminal text. -/
inductive Style
  | red
  | green
  | yellow
  | blue
  | magenta
  | cyan
  | bold
  | dim
  | underline
  deriving DecidableEq, Repr

namespace Style

/-- The code that switches a style on. -/
def on : Style → String
  | red => "\x1b[31m"
  | green => "\x1b[32m"
  | yellow => "\x1b[33m"
  | blue => "\x1b[34m"
  | magenta => "\x1b[35m"
  | cyan => "\x1b[36m"
  | bold => "\x1b[1m"
  | dim => "\x1b[2m"
  | underline => "\x1b[4m"

/-- The code that switches a style off. -/
def off : Style → String
  | bold | dim => "\x1b[22m"
  | underline => "\x1b[24m"
  | _ => "\x1b[39m"

/-- `text` in the given style. -/
def paint (style : Style) (text : String) : String := style.on ++ text ++ style.off

end Style

end NibblePascal
