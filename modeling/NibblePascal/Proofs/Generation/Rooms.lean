import NibblePascal.Proofs.Generation.Selectors
import NibblePascal.Proofs.Generation.Thinned
import NibblePascal.Proofs.Semantics.Calls

/-!
# The rooms of a program

The code of a program is laid out in rooms, one for each procedure and a last one for the program
itself.  A room begins with its label, and the room of a procedure ends with the dispatch that
returns.

* `Room`, `Room.pieces`: a room and its code;
* `Room.Holds`: the statement whose code fills a room;
* `Room.Neat`: jumps stay in the room and calls are answered right behind; this is true of all
  rooms, `Room.Holds.neat`, and stays true when the room is thinned, `Room.Neat.thinned`.
-/

namespace NibblePascal

/-- The code of a procedure, or of the program for `none`, without its label and its end. -/
structure Room where
  name : Option String
  body : List Piece

namespace Room

/-- The label that a room begins with. -/
def label (r : Room) : String :=
  match r.name with
  | some p => Gen.procedureLabel p
  | none => "@main"

/-- How a room ends: a procedure returns. -/
def ending (r : Room) : List Piece :=
  match r.name with
  | some p => [.finish p, .line (.endProc p)]
  | none => []

/-- The code of a room. -/
def pieces (r : Room) : List Piece := .line (.label r.label) :: (r.body ++ r.ending)

/-- The room is filled with the code of a statement, which stands in a program that is `o` in the
end, and the calls of the statement are among the given ones. -/
structure Holds (calls : List (Option String × String)) (o : Outline) (r : Room) : Prop where
  filled : ∃ (before : Outline) (st : Stmt) (stock : Stock),
    Stmt.Coded before.scope before.stock st r.body stock ∧ st.asmFree = true ∧ before.Tidy
      ∧ before.Selective ∧ (before.restock stock).Precedes o
      ∧ ∀ p ∈ st.callees, (r.name, p) ∈ calls

end Room

/-! ### Calls and their answers -/

/-- Every call has its return label right behind it. -/
def Piece.Answered : List Piece → Prop
  | [] => True
  | .call _ ret :: rest => (∃ rest', rest = .line (.label ret) :: rest') ∧ Answered rest
  | _ :: rest => Answered rest

namespace Piece.Answered

variable {a b : List Piece}

theorem append (ha : Answered a) (hb : Answered b) : Answered (a ++ b) := by
  induction a with
  | nil => exact hb
  | cons piece a ih =>
    cases piece with
    | line | finish => exact ih ha
    | call p ret =>
      obtain ⟨⟨rest, rfl⟩, ha⟩ := ha
      exact ⟨⟨rest ++ b, rfl⟩, ih ha⟩

theorem ofLines (lines : List Line) : Answered (ofLines lines) := by
  induction lines with
  | nil => trivial
  | cons l lines ih => exact ih

/-- What follows a call. -/
theorem of_append {p ret : String} (h : Answered (a ++ .call p ret :: b)) :
    ∃ b', b = .line (.label ret) :: b' := by
  induction a with
  | nil => exact h.1
  | cons piece a ih =>
    cases piece with
    | line | finish => exact ih h
    | call => exact ih h.2

/-- A return label is not taken out. -/
theorem thinned (h : Answered b) (ht : Thinned a b) : Answered a := by
  induction ht with
  | nil => trivial
  | keep piece ht ih =>
    cases piece with
    | line | finish => exact ih h
    | call p ret =>
      obtain ⟨⟨rest, rfl⟩, h⟩ := h
      obtain ⟨rest', rfl, -⟩ := ht.of_cons rfl
      exact ⟨⟨rest', rfl⟩, ih h⟩
  | drop _ _ ih => exact ih h

end Piece.Answered

section Statements

variable {sc : Scope} {s s' : Stock} {st : Stmt} {code : List Piece}

theorem Stmt.Coded.answered (h : Stmt.Coded sc s st code s') : Piece.Answered code := by
  have hline : ∀ l, Piece.Answered [.line l] := fun _ => trivial
  have hpair : ∀ l l', Piece.Answered [.line l, .line l'] := fun _ _ => trivial
  induction h with
  | skip | nop => trivial
  | seq _ _ ihf ihr => exact ihf.append ihr
  | block _ ih => exact ih
  | assign | setElement | fillList | fillText | copyArray | asm | step | output | input =>
    exact .ofLines _
  | call => exact ⟨⟨[], rfl⟩, trivial⟩
  | ifThen _ _ ih => exact (Piece.Answered.ofLines _).append (ih.append (hline _))
  | ifElse _ _ _ ihy ihn =>
    exact (Piece.Answered.ofLines _).append (ihy.append (ihn.append (hline _)))
  | whileDo _ _ ih => exact (Piece.Answered.ofLines _).append (ih.append (hpair _ _))
  | repeatUntil _ _ ih => exact ih.append ((Piece.Answered.ofLines _).append (hline _))
  | forDo _ _ _ _ _ _ ih =>
    refine (Piece.Answered.ofLines _).append (.append ?_ (.ofLines _))
    exact (Piece.Answered.ofLines _).append (ih.append ((Piece.Answered.ofLines _).append
      ((Piece.Answered.ofLines _).append (hpair _ _))))

/-- The procedures called in the code are those called in the statement. -/
theorem Stmt.Coded.mem_callees (h : Stmt.Coded sc s st code s') {p ret : String}
    (hp : .call p ret ∈ code) : p ∈ st.callees := by
  have hlines : ∀ {lines}, .call p ret ∉ Piece.ofLines lines := by simp [Piece.ofLines]
  induction h with
  | skip | nop => simp at hp
  | seq _ _ ihf ihr =>
    exact List.mem_append.2 ((List.mem_append.1 hp).imp ihf ihr)
  | block _ ih => exact ih hp
  | assign | setElement | fillList | fillText | copyArray | asm | step | output | input =>
    exact absurd hp hlines
  | call => simp_all [Piece.mark, Stmt.callees]
  | ifThen _ _ ih => exact ih (by simpa [Piece.ifThen, Piece.test, Piece.mark, hlines] using hp)
  | ifElse _ _ _ ihy ihn =>
    refine List.mem_append.2 (Or.imp ihy ihn ?_)
    simpa [Piece.ifElse, Piece.test, Piece.mark, Piece.goto, hlines] using hp
  | whileDo _ _ ih =>
    exact ih (by simpa [Piece.whileDo, Piece.test, Piece.mark, Piece.goto, hlines] using hp)
  | repeatUntil _ _ ih =>
    exact ih (by simpa [Piece.repeatUntil, Piece.test, Piece.mark, hlines] using hp)
  | forDo _ _ _ _ _ _ ih =>
    exact ih (by
      simpa [Piece.forLoop, Piece.test, Piece.mark, Piece.goto, Piece.ofLines] using hp)

/-- The line of a piece, where calls are left out. -/
def Piece.quiet : Piece → Line
  | line l => l
  | _ => .comment ""

theorem Piece.eq_of_quiet {piece : Piece} {l : Line} (h : piece.quiet = l)
    (hl : l.isComment = false) : piece = .line l := by
  subst h
  cases piece with
  | line l => rfl
  | call | finish => cases hl

/-- A statement has the labels that it jumps to, and they are numbered. -/
theorem Stmt.Coded.quiet (h : Stmt.Coded sc s st code s') (hst : st.asmFree = true) :
    Labelled (fun _ => False) (fun k => s.labels ≤ k ∧ k < s'.labels) (code.map Piece.quiet) :=
  (h.labelled_of hst _ (fun _ => rfl) fun p ret _ => AllStraight.labelled (by
    simp [Piece.quiet, Line.IsStraight])).2

end Statements

/-! ### Neat rooms -/

namespace Room

/-- Jumps stay in the room, its labels are numbered, calls are answered right behind, no procedure
ends in it, and the room keeps to a territory. -/
structure Neat (T : Territory) (r : Room) : Prop where
  jumps : ∀ kind t, .line (.inst (.jump kind t)) ∈ r.body → .line (.label t) ∈ r.body
  labels : ∀ t, .line (.label t) ∈ r.body → ∃ n, t = Code.labelName n
  answered : Piece.Answered r.body
  unfinished : ∀ p, .finish p ∉ r.body
  unmarked : ∀ p, .line (.endProc p) ∉ r.body
  guarded : T.Keeps (r.body.map Piece.plain)

variable {calls : List (Option String × String)} {o : Outline} {r : Room} {T : Territory}

theorem Holds.neat (h : r.Holds calls o) (ho : o.Selective) : r.Neat o.grounds := by
  obtain ⟨before, st, stock, hst, hasm, htidy, hsel, hprec, -⟩ := h.filled
  obtain ⟨ns, hns, -⟩ := (hst.quiet hasm).numbers
  refine ⟨fun kind t hmem => ?_, fun t hmem => ?_, hst.answered, hst.not_finish,
    fun p hmem => ?_, ?_⟩
  · -- Calls are taken for comments, so a label of these lines is a label of the room.
    have htarget : t ∈ jumpTargets (r.body.map Piece.quiet) :=
      List.mem_filterMap.2 ⟨_, List.mem_map_of_mem hmem, rfl⟩
    obtain hlabel | hfalse := (hst.quiet hasm).closed t htarget
    · obtain ⟨l, hl, heq⟩ := List.mem_filterMap.1 hlabel
      obtain ⟨piece, hpiece, rfl⟩ := List.mem_map.1 hl
      cases hq : piece.quiet with
      | label name =>
        rw [hq] at heq
        cases heq
        exact Piece.eq_of_quiet hq rfl ▸ hpiece
      | inst | comment | release | endProc | raw =>
        rw [hq] at heq
        cases heq
    · exact hfalse.elim
  · have hlabel : t ∈ labelNames (r.body.map Piece.quiet) :=
      List.mem_filterMap.2 ⟨_, List.mem_map_of_mem hmem, rfl⟩
    rw [hns] at hlabel
    obtain ⟨n, -, rfl⟩ := List.mem_map.1 hlabel
    exact ⟨n, rfl⟩
  · exact (hst.quiet hasm).unmarked _ (List.mem_map_of_mem hmem) p rfl
  · have hafter := Outline.selective_invariant.statement hsel hst
    exact hst.guarded hasm htidy.lends.ledger htidy.lends.memory (hprec.spans hafter ho)

theorem Holds.mem_calls (h : r.Holds calls o) {p ret : String} (hp : .call p ret ∈ r.body) :
    (r.name, p) ∈ calls := by
  obtain ⟨before, st, stock, hst, -, -, -, -, hcalls⟩ := h.filled
  exact hcalls p (hst.mem_callees hp)

/-- The bank behind a piece depends on the place only. -/
theorem Neat.guards_next (h : r.Neat T) {a b : List Piece} {piece : Piece}
    (hbody : r.body = a ++ piece :: b) {bank : Nat}
    (hguards : T.Guards 0 (a.map Piece.plain) bank) : T.Allows bank piece.plain
      ∧ T.Guards 0 ((a ++ [piece]).map Piece.plain) (piece.plain.bankAfter bank) := by
  have hall := h.guarded
  rw [hbody, List.map_append] at hall
  obtain ⟨mid, hmid, hallows, -⟩ := Territory.guards_append.1 hall
  obtain rfl := hmid.unique hguards
  refine ⟨hallows, ?_⟩
  rw [List.map_append]
  exact Territory.guards_append.2 ⟨mid, hmid, hallows, rfl⟩

/-- Bank 0 is selected where a piece stands that needs it. -/
theorem Neat.guards_zero (h : r.Neat T) {a b : List Piece} {piece : Piece}
    (hbody : r.body = a ++ piece :: b) (hzero : ∀ bank, T.Allows bank piece.plain → bank = 0) :
    T.Guards 0 (a.map Piece.plain) 0 := by
  have hall := h.guarded
  rw [hbody, List.map_append] at hall
  obtain ⟨bank, hbefore, hallows, -⟩ := Territory.guards_append.1 hall
  rwa [hzero bank hallows] at hbefore

theorem Neat.thinned (h : r.Neat T) {body : List Piece} (ht : Thinned body r.body) :
    (⟨r.name, body⟩ : Room).Neat T where
  jumps := fun kind t hmem => ht.mem_of_not_loose rfl (h.jumps kind t (ht.sublist.subset hmem))
  labels := fun t hmem => h.labels t (ht.sublist.subset hmem)
  answered := h.answered.thinned ht
  unfinished := fun p hp => h.unfinished p (ht.sublist.subset hp)
  unmarked := fun p hp => h.unmarked p (ht.sublist.subset hp)
  guarded := h.guarded.tidied ht.tidied_plain

end Room

end NibblePascal
