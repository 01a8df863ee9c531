import NibblePascal.Assembly.Line

/-!
# Tidying finished code

`tidy` makes two passes over finished lines, whose jumps all have their targets.

* `dropRedundant` takes out the reload of a cell that was stored just before, and a jump to
  the label right below it;
* `dropDeadStores` takes out a store into a temporary that is released before anything reads
  it, together with the mark of the release.
-/

namespace NibblePascal

/-! ### Redundant lines -/

/-- Lines that neither touch the accumulator nor can be jumped to. -/
def Line.isTransparent : Line → Bool
  | .inst (.stc _) => true
  | l => l.isComment

/-- Whether a line loads the cell that the lines before it, the nearest first, stored into
last. -/
def isReload (before : List Line) : Line → Bool
  | .inst (.lda (.mem addr)) =>
      before.find? (!·.isTransparent) == some (.inst (.sta (.mem addr)))
  | _ => false

/-- Whether a line jumps to the label that comes next after it. -/
def isIdleJump (after : List Line) : Line → Bool
  | .inst (.jump _ target) => after.find? (!·.isComment) == some (.label target)
  | _ => false

/-- Take out redundant lines, given the lines kept before, the nearest first. -/
def dropRedundantFrom (before : List Line) : List Line → List Line
  | [] => before.reverse
  | l :: rest =>
      if isReload before l || isIdleJump rest l then dropRedundantFrom before rest
      else dropRedundantFrom (l :: before) rest

/-- Take out reloads and jumps that do nothing. -/
def dropRedundant (lines : List Line) : List Line := dropRedundantFrom [] lines

/-! ### Dead stores -/

/-- Whether `part` stands somewhere in a text. -/
def hasPart (part : List Char) : List Char → Bool
  | [] => part.isEmpty
  | c :: cs => part.isPrefixOf (c :: cs) || hasPart part cs

/-- Whether a line may use the cell, or ends the procedure that could. -/
def mayUse (addr : Nat) : Line → Bool
  | .endProc _ => true
  | .inst (.lda (.mem used)) | .inst (.sta (.mem used)) => used == addr
  | .raw _ (some param) => hasPart (cellText addr).toList param.toList
  | _ => false

/-- The lines without the first release of the cell, if no line before it may use the cell. -/
def withoutRelease? (addr : Nat) : List Line → Option (List Line)
  | [] => none
  | l :: rest =>
      if l == .release addr then some rest
      else if mayUse addr l then none
      else (withoutRelease? addr rest).map (l :: ·)

theorem length_of_withoutRelease? {addr : Nat} {lines rest : List Line}
    (h : withoutRelease? addr lines = some rest) : rest.length + 1 = lines.length := by
  induction lines generalizing rest with
  | nil => simp [withoutRelease?] at h
  | cons l ls ih =>
    simp only [withoutRelease?] at h
    split at h
    · simp_all
    · split at h
      · cases h
      · obtain ⟨tail, htail, rfl⟩ := Option.map_eq_some_iff.1 h
        simp [ih htail]

/-- The cell that a line stores into. -/
def storedCell? : Line → Option Nat
  | .inst (.sta (.mem addr)) => some addr
  | _ => none

/-- Take out stores whose cell is released before it is used, with their releases. -/
def dropDeadStores : List Line → List Line
  | [] => []
  | l :: rest =>
      match _h : (storedCell? l).bind (withoutRelease? · rest) with
      | some shorter => dropDeadStores shorter
      | none => l :: dropDeadStores rest
termination_by lines => lines.length
decreasing_by
  · obtain ⟨addr, _, hrest⟩ := Option.bind_eq_some_iff.1 _h
    have := length_of_withoutRelease? hrest
    simp only [List.length_cons]
    omega
  · simp

/-- Tidy finished lines. -/
def tidy (lines : List Line) : List Line := dropDeadStores (dropRedundant lines)

end NibblePascal
