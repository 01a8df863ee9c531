/-!
# Paths

A path is a list of names with slashes between them.

* `pathParts` cuts a path at its slashes, and `enterPart` is one step along it: an empty part
  and `.` stay where they are, `..` goes up;
* `tidyPath` is the shortest way to write the place that a path leads to;
* `fileName?` is the name at the end of a path, and `withExtension` puts another extension
  in the place of the one that the name has.
-/

namespace NibblePascal

/-! ### Steps -/

/-- The parts of a text between its slashes. -/
def splitSlashes : List Char → List (List Char)
  | [] => [[]]
  | c :: cs =>
      match splitSlashes cs with
      | [] => [[c]]
      | part :: parts => if c == '/' then [] :: part :: parts else (c :: part) :: parts

/-- The parts of a path between its slashes. -/
def pathParts (path : String) : List String := (splitSlashes path.toList).map String.ofList

/-- One step from a place, which is given by the names that lead there.  An empty name at the
start stands for the root; above the root there is nothing. -/
def enterPart (place : List String) (part : String) : List String :=
  if part == "" || part == "." then place
  else if part == ".." then
    if place == [""] then place
    else if place.isEmpty || place.getLast? == some ".." then place ++ [".."]
    else place.dropLast
  else place ++ [part]

/-- Where a path starts, and the parts that lead on from there. -/
def pathStart (path : String) : List String × List String :=
  match pathParts path with
  | "" :: part :: parts => ([""], part :: parts)
  | parts => ([], parts)

/-- The path of a place. -/
def joinParts (place : List String) : String := "/".intercalate place

/-- A path without the parts that lead nowhere. -/
def tidyPath (path : String) : String :=
  let (start, parts) := pathStart path
  joinParts (parts.foldl enterPart start)

/-! ### File names -/

/-- A path, read from its end, without the slashes and single dots that end it. -/
def dropIdle : List Char → List Char
  | '/' :: cs => dropIdle cs
  | '.' :: '/' :: cs => dropIdle cs
  | cs => cs

/-- The name at the end of a path, after what stands before it.  A path that ends by staying
or going up has none. -/
def fileName? (path : List Char) : Option (List Char × List Char) :=
  let cs := dropIdle path.reverse
  let name := (cs.takeWhile (· != '/')).reverse
  if name.isEmpty || name == ['.'] || name == ['.', '.'] then none
  else some ((cs.dropWhile (· != '/')).reverse, name)

/-- A name before and after its last dot.  A dot at the start of a name begins no
extension. -/
def splitExtension (name : List Char) : List Char × Option (List Char) :=
  match name.reverse.dropWhile (· != '.') with
  | _ :: c :: stem => ((c :: stem).reverse, some (name.reverse.takeWhile (· != '.')).reverse)
  | _ => (name, none)

/-- A path that ends where the extension of its name begins, behind the dot. -/
def dropExtension (path : List Char) : List Char :=
  match (fileName? path).bind fun (_, name) => (splitExtension name).2 with
  | some extension => path.take (path.length - extension.length)
  | none => path

/-- The path with another extension in the place of the one its name has.  The old extension
goes first: where no name is left then, as in `..` from `..pas`, none is added. -/
def withExtension (path extension : String) : String :=
  let cut := dropExtension path.toList
  match fileName? cut with
  | some (before, name) =>
      String.ofList (before ++ (splitExtension name).1) ++ "." ++ extension
  | none => String.ofList cut

end NibblePascal
