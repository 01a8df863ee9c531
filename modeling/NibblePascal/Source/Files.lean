import NibblePascal.Fault
import NibblePascal.Source.Path

/-!
# Files

A store of files by path, with the contents as bytes.  A directory exists if something lies in
it or if it is listed as one.

* `place` follows a path: several paths may lead to the same file;
* `readText` reads a file as text;
* `writeText` makes or replaces a file in a directory that exists.
-/

namespace NibblePascal

/-- Files by tidy path, and directories that may have no files. -/
structure Files where
  entries : List (String × ByteArray) := []
  directories : List String := []
  deriving Inhabited

/-- What a path leads to. -/
inductive Place
  /-- A file, with its tidy path. -/
  | file (path : String) (bytes : ByteArray)
  | directory
  /-- Nothing, in a directory that exists. -/
  | vacant (path : String)
  /-- Nothing, because of something on the way. -/
  | unreachable (why : FileFault)
  deriving Inhabited

namespace Files

/-- The bytes of a file with a tidy path. -/
def get? (files : Files) (path : String) : Option ByteArray := files.entries.lookup path

/-- The files with another content at a tidy path. -/
def put (files : Files) (path : String) (bytes : ByteArray) : Files :=
  if (files.get? path).isSome then
    { files with
      entries := files.entries.map fun e => if e.1 == path then (path, bytes) else e }
  else { files with entries := files.entries ++ [(path, bytes)] }

/-- The store of some files, each with its path. -/
def ofList (contents : List (String × ByteArray)) : Files :=
  contents.foldl (fun files (path, bytes) => files.put (tidyPath path) bytes) {}

/-- The files and a directory that may be empty. -/
def addDirectory (files : Files) (path : String) : Files :=
  { files with directories := tidyPath path :: files.directories }

/-- The number of bytes in all files. -/
def size (files : Files) : Nat := files.entries.foldr (fun entry rest => entry.2.size + rest) 0

/-- Whether the parts of a tidy path lead to a directory.  The root, the place where paths
start and the places above it always are directories. -/
def isDirectory (files : Files) (parts : List String) : Bool :=
  let stem := (joinParts parts).toList ++ ['/']
  parts.all (· == "..") || parts == [""]
    || files.directories.any (fun path => stem.isPrefixOf (path.toList ++ ['/']))
    || files.entries.any (fun e => stem.isPrefixOf e.1.toList)

/-- What the parts of a path lead to from a directory. -/
def follow (files : Files) (here : List String) : List String → Place
  | [] => .directory
  | part :: rest =>
      let next := enterPart here part
      match files.get? (joinParts next) with
      | some bytes =>
          if rest.isEmpty then .file (joinParts next) bytes else .unreachable .notDirectory
      | none =>
          if files.isDirectory next then files.follow next rest
          else if rest.isEmpty then .vacant (joinParts next)
          else .unreachable .notFound

/-- What a path leads to.  The empty path leads nowhere. -/
def place (files : Files) (path : String) : Place :=
  if path.isEmpty then .unreachable .notFound
  else
    let (start, parts) := pathStart path
    files.follow start parts

/-- The bytes of a file, or why there are none. -/
def read (files : Files) (path : String) : Except FileFault ByteArray :=
  match files.place path with
  | .file _ bytes => .ok bytes
  | .directory => .error .isDirectory
  | .vacant _ => .error .notFound
  | .unreachable why => .error why

/-- The content of a file as text. -/
def readText (files : Files) (path : String) : Except FileFault String := do
  match String.fromUTF8? (← files.read path) with
  | some text => return text
  | none => throw .notText

/-- The path without slashes at its end. -/
def withoutSlashes (path : String) : String :=
  String.ofList (path.toList.reverse.dropWhile (· == '/')).reverse

/-- Make or replace a file.  A path that ends with a slash names no file: it counts as a
directory if it can be reached. -/
def writeText (files : Files) (path text : String) : Except FileFault Files :=
  match files.place path, files.place (withoutSlashes path) with
  | .file path _, _ | .vacant path, _ => .ok (files.put path text.toUTF8)
  | .unreachable _, .unreachable why => .error why
  | _, _ => .error .isDirectory

end Files

end NibblePascal
