import NibblePascal.Assembly.Line
import NibblePascal.Defect

/-!
# Numbered lines under construction

A `Sequence` grows at its end; each line gets a number that no other line of the sequence ever
has.  A number stays with its line while lines are inserted around it, so a pending jump can
be given its target later and a line can be replaced later.  An index leads from the numbers to the
positions of the lines.

* `push`, `append` add lines at the end;
* `position?` looks a number up in the index;
* `patch` gives a pending jump its target;
* `splice` replaces lines, or inserts lines before them, in one pass;
* `pendingPosition?` finds the first jump without a target.
-/

namespace NibblePascal

/-- The number of a line in a sequence. -/
abbrev EntryId := Nat

/-- A line and its number. -/
structure Entry where
  id : EntryId
  line : Line
  deriving DecidableEq, Repr, Inhabited

/-- Lines under construction, and the number of the next one. -/
structure Sequence where
  items : Array Entry := #[]
  /-- The positions of the lines by their numbers, for all numbers given out. -/
  index : Array (Option Nat) := #[]
  next : EntryId := 0
  deriving DecidableEq, Repr, Inhabited

/-- A change of one line: its replacement, or lines to put before it. -/
inductive Edit
  | replace (lines : List Line)
  | insertBefore (lines : List Line)
  deriving DecidableEq, Repr, Inhabited

namespace Edit

/-- The lines that an edit brings in. -/
def lines : Edit → List Line
  | replace ls | insertBefore ls => ls

/-- Whether the edited line stays. -/
def keeps : Edit → Bool
  | replace _ => false
  | insertBefore _ => true

end Edit

namespace Sequence

/-- The lines without their numbers. -/
def lines (s : Sequence) : List Line := s.items.toList.map (·.line)

/-- Add a line at the end. -/
def push (s : Sequence) (line : Line) : Sequence :=
  ⟨s.items.push ⟨s.next, line⟩, s.index.push (some s.items.size), s.next + 1⟩

/-- Add lines at the end. -/
def append (s : Sequence) (lines : List Line) : Sequence := lines.foldl push s

/-- The position of the line with the given number. -/
def position? (s : Sequence) (id : EntryId) : Option Nat := s.index[id]?.join

/-- Whether there is a line with the given number. -/
def contains (s : Sequence) (id : EntryId) : Bool := s.items.any (·.id == id)

/-- The jump of a line that waits for its target, aimed at `label`. -/
def aim (label : String) : Line → Option Line
  | .inst (.jump kind target) =>
      if target.isEmpty then some (.inst (.jump kind label)) else none
  | _ => none

/-- Give a pending jump its target. -/
def patch (s : Sequence) (id : EntryId) (label : String) : Except Defect Sequence :=
  match s.position? id with
  | none => .error (.unknownEntry id)
  | some pos =>
      match (s.items[pos]?).bind (aim label ·.line) with
      | none => .error (.notPending id)
      | some line => .ok { s with items := s.items.modify pos ({ · with line := line }) }

/-- Give every one of several pending jumps the same target. -/
def patchAll (s : Sequence) (ids : List EntryId) (label : String) : Except Defect Sequence :=
  ids.foldlM (fun s id => s.patch id label) s

/-- Number lines from `next` on. -/
def number (next : EntryId) : List Line → List Entry
  | [] => []
  | line :: lines => ⟨next, line⟩ :: number (next + 1) lines

/-- The entries after the edits of `edit?`, with new numbers from `next` on, and the next
number after them. -/
def edited (edit? : EntryId → Option Edit) (next : EntryId) :
    List Entry → List Entry × EntryId
  | [] => ([], next)
  | e :: es =>
      match edit? e.id with
      | none =>
          let (rest, last) := edited edit? next es
          (e :: rest, last)
      | some edit =>
          let (rest, last) := edited edit? (next + edit.lines.length) es
          (number next edit.lines ++ (if edit.keeps then e :: rest else rest), last)

/-- The edit of a line: of several edits of one number the last counts. -/
def editOf? (edits : List (EntryId × Edit)) (id : EntryId) : Option Edit :=
  edits.foldl (fun found e => if e.1 == id then some e.2 else found) none

/-- The index of entries whose numbers are below `count`. -/
def indexOf (count : Nat) (items : List Entry) : Array (Option Nat) :=
  items.zipIdx.foldl (fun index e => index.setIfInBounds e.1.id (some e.2))
    (Array.replicate count none)

/-- Apply all edits in one pass.  Every edited number has to be in the sequence. -/
def splice (s : Sequence) (edits : List (EntryId × Edit)) : Except Defect Sequence :=
  match edits.find? (fun e => !s.contains e.1) with
  | some e => .error (.unknownEntry e.1)
  | none =>
      let (items, next) := edited (editOf? edits) s.next s.items.toList
      .ok ⟨items.toArray, indexOf next items, next⟩

/-- The position of the first jump that waits for its target. -/
def pendingPosition? (s : Sequence) : Option Nat := s.items.findIdx? (·.line.isPending)

/-! ### The view as a list of lines -/

@[simp] theorem lines_push (s : Sequence) (line : Line) :
    (s.push line).lines = s.lines ++ [line] := by
  simp [lines, push]

@[simp] theorem lines_append (s : Sequence) (ls : List Line) :
    (s.append ls).lines = s.lines ++ ls := by
  induction ls generalizing s with
  | nil => simp [append]
  | cons l ls ih =>
    have := ih (s.push l)
    simp only [append] at this ⊢
    simp [this]

end Sequence

end NibblePascal
