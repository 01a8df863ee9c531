/-!
# Sources

The lines of every source text read so far, in the order of their first reading.  A text that
is read again keeps its place.
-/

namespace NibblePascal

/-- Source lines by file name. -/
structure Sources where
  entries : List (String × List String) := []
  deriving DecidableEq, Repr, Inhabited

namespace Sources

/-- The lines of a file. -/
def get? (s : Sources) (file : String) : Option (List String) := s.entries.lookup file

/-- Record the lines of a file. -/
def put (s : Sources) (file : String) (lines : List String) : Sources :=
  if (s.get? file).isSome then
    ⟨s.entries.map fun e => if e.1 == file then (file, lines) else e⟩
  else ⟨s.entries ++ [(file, lines)]⟩

/-- A line of a file, counted from one; empty if there is no such line. -/
def line (s : Sources) (file : String) (number : Nat) : String :=
  match number with
  | 0 => ""
  | n + 1 => ((s.get? file).bind (·[n]?)).getD ""

end Sources

end NibblePascal
