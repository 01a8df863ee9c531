import NibblePascal.Storage.Variable

/-!
# Scopes

A scope holds the names that are visible at a point of a program.  Variables and procedures have
separate names.  A name that is visible cannot be declared again, so an inner block never hides a
name of an outer one.  Every open block keeps the names that were declared in it, and when it is
closed these names are taken away.  What is declared outside every block stays.
-/

namespace NibblePascal

/-- The names that one block declares, the last one first. -/
structure Frame where
  symbols : List String := []
  procedures : List String := []
  deriving DecidableEq, Repr, Inhabited

/-- What is visible, the last declared first, and the open blocks, the innermost first. -/
structure Scope where
  symbols : List Symbol := []
  procedures : List String := []
  blocks : List Frame := []
  deriving DecidableEq, Repr, Inhabited

namespace Scope

/-- Open a block. -/
def enter (s : Scope) : Scope := { s with blocks := {} :: s.blocks }

/-- Close the innermost block and take away what was declared in it. -/
def leave (s : Scope) : Scope :=
  match s.blocks with
  | [] => s
  | frame :: rest =>
      { symbols := s.symbols.filter fun symbol => !frame.symbols.contains symbol.name
        procedures := s.procedures.filter fun name => !frame.procedures.contains name
        blocks := rest }

/-- What a visible name stands for. -/
def find? (s : Scope) (name : String) : Option Symbol := s.symbols.find? (·.name == name)

/-- Whether a procedure is visible. -/
def hasProcedure (s : Scope) (name : String) : Bool := s.procedures.contains name

/-- Declare a symbol in the innermost block, unless its name is visible already. -/
def declare? (s : Scope) (symbol : Symbol) : Option Scope :=
  match s.find? symbol.name with
  | some _ => none
  | none => some
      { s with
        symbols := symbol :: s.symbols
        blocks := s.blocks.modifyHead fun f => { f with symbols := symbol.name :: f.symbols } }

/-- Declare a procedure in the innermost block, unless it is visible already. -/
def declareProcedure? (s : Scope) (name : String) : Option Scope :=
  if s.hasProcedure name then none
  else some
    { s with
      procedures := name :: s.procedures
      blocks := s.blocks.modifyHead fun f => { f with procedures := name :: f.procedures } }

end Scope

end NibblePascal
