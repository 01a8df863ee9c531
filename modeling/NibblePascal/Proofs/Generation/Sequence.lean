import NibblePascal.Assembly.Sequence
import NibblePascal.Code.Test
import Mathlib.Logic.Function.Basic

/-!
# Code under construction

The numbers of the lines of a sequence are distinct and below the next one, and the index leads
from each of them to the position of its line (`Sequence.Sound`).  While code is generated, the
numbers are even the positions of the lines: the code is `Sequence.ofLines lines` for the lines so
far.

* `Sound.patchAll_true` and `Sound.patchAll_false`: the exits of a test that wait for their target
  get it, and nothing else changes;
* `lines_splice`: what is left of the lines when edits are spliced in.
-/

namespace NibblePascal

namespace Sequence

/-- The sequence of lines that are numbered by their positions. -/
def ofLines (lines : List Line) : Sequence := ({} : Sequence).append lines

theorem append_append (s : Sequence) (a b : List Line) :
    (s.append a).append b = s.append (a ++ b) := (List.foldl_append ..).symm

@[simp] theorem ofLines_append (a b : List Line) : (ofLines a).append b = ofLines (a ++ b) :=
  append_append ..

@[simp] theorem ofLines_push (a : List Line) (l : Line) :
    (ofLines a).push l = ofLines (a ++ [l]) := ofLines_append a [l]

@[simp] theorem lines_ofLines (a : List Line) : (ofLines a).lines = a := by
  rw [ofLines, lines_append]
  rfl

theorem append_eq (s : Sequence) (a : List Line) :
    s.append a = ⟨s.items ++ (number s.next a).toArray,
      s.index ++ ((List.range' s.items.size a.length).map some).toArray, s.next + a.length⟩ := by
  induction a generalizing s with
  | nil => simp [append, number]
  | cons l a ih =>
    have h := ih (s.push l)
    simp only [append, List.foldl_cons] at h ⊢
    rw [h]
    simp [push, number, List.range'_succ, Nat.add_assoc, Nat.add_comm 1]

@[simp] theorem next_append (s : Sequence) (a : List Line) :
    (s.append a).next = s.next + a.length := by
  rw [append_eq]

theorem ofLines_eq (a : List Line) : ofLines a =
    ⟨(number 0 a).toArray, ((List.range' 0 a.length).map some).toArray, a.length⟩ := by
  simp [ofLines, append_eq]

@[simp] theorem next_ofLines (a : List Line) : (ofLines a).next = a.length := by
  rw [ofLines_eq]

@[simp] theorem length_number (n : EntryId) (a : List Line) : (number n a).length = a.length := by
  induction a generalizing n with
  | nil => rfl
  | cons l a ih => simp [number, ih]

theorem getElem?_number (n : EntryId) (a : List Line) (i : Nat) :
    (number n a)[i]? = a[i]?.map (⟨n + i, ·⟩) := by
  induction a generalizing n i with
  | nil => simp [number]
  | cons l a ih =>
    cases i with
    | zero => simp [number]
    | succ i =>
      rw [number, List.getElem?_cons_succ, ih, List.getElem?_cons_succ]
      simp [Nat.add_assoc, Nat.add_comm 1]

theorem number_append (n : EntryId) (a b : List Line) :
    number n (a ++ b) = number n a ++ number (n + a.length) b := by
  induction a generalizing n with
  | nil => rfl
  | cons l a ih => simp [number, ih, Nat.add_assoc, Nat.add_comm 1]

theorem id_lt_of_mem_number {n : EntryId} {a : List Line} {e : Entry} (h : e ∈ number n a) :
    e.id < n + a.length := by
  obtain ⟨i, hi⟩ := List.getElem?_of_mem h
  rw [getElem?_number, Option.map_eq_some_iff] at hi
  obtain ⟨l, hl, rfl⟩ := hi
  exact Nat.add_lt_add_left (List.getElem?_eq_some_iff.1 hl).1 n

theorem next_le_of_mem_number {n : EntryId} {a : List Line} {e : Entry} (h : e ∈ number n a) :
    n ≤ e.id := by
  obtain ⟨i, hi⟩ := List.getElem?_of_mem h
  rw [getElem?_number, Option.map_eq_some_iff] at hi
  obtain ⟨l, hl, rfl⟩ := hi
  exact Nat.le_add_right ..

theorem nodup_number (n : EntryId) (a : List Line) : ((number n a).map (·.id)).Nodup := by
  induction a generalizing n with
  | nil => exact List.nodup_nil
  | cons l a ih =>
    refine List.nodup_cons.2 ⟨fun hmem => ?_, ih (n + 1)⟩
    obtain ⟨e, he, hid⟩ := List.mem_map.1 hmem
    exact absurd (next_le_of_mem_number he) (by rw [hid]; exact Nat.not_succ_le_self n)

/-! ### Numbers of lines -/

/-- The numbers of the lines are distinct and below the next one, and the index leads from each of
them to the position of its line and from no other number to any. -/
structure Sound (s : Sequence) : Prop where
  nodup : (s.items.toList.map (·.id)).Nodup
  below : ∀ e ∈ s.items.toList, e.id < s.next
  size : s.index.size = s.next
  indexed : ∀ {id : EntryId} {pos : Nat},
    s.position? id = some pos ↔ ∃ line, s.items[pos]? = some ⟨id, line⟩

theorem sound_empty : Sound {} :=
  ⟨List.nodup_nil, fun _ he => absurd he List.not_mem_nil, rfl, by simp [position?]⟩

theorem Sound.push {s : Sequence} (hs : s.Sound) (line : Line) : (s.push line).Sound where
  nodup := by
    have hfresh : s.next ∉ s.items.toList.map (·.id) := by
      intro hmem
      obtain ⟨e, he, hid⟩ := List.mem_map.1 hmem
      exact Nat.ne_of_lt (hs.below e he) hid
    simp only [Sequence.push, Array.toList_push, List.map_append, List.map_cons, List.map_nil]
    exact List.nodup_append.2 ⟨hs.nodup, List.nodup_cons.2 ⟨List.not_mem_nil, List.nodup_nil⟩, by grind⟩
  below := by
    intro e he
    rcases List.mem_append.1 (Array.toList_push ▸ he) with he | he
    · exact Nat.lt_succ_of_lt (hs.below e he)
    · rw [List.mem_singleton.1 he]
      exact Nat.lt_succ_self _
  size := by
    rw [Sequence.push, Array.size_push, hs.size]
  indexed := by
    intro id pos
    have hbefore : s.position? id = some pos ↔ ∃ line, s.items[pos]? = some ⟨id, line⟩ := hs.indexed
    simp only [Sequence.push, position?, Option.join_eq_some_iff, Array.getElem?_push, hs.size]
      at hbefore ⊢
    by_cases hid : id = s.next
    · -- No old line has the new number.
      have hold : ∀ line, s.items[pos]? ≠ some ⟨id, line⟩ := by
        intro line hline
        exact Nat.ne_of_lt (hs.below _ (Array.mem_toList_iff.2 (Array.mem_of_getElem? hline))) hid
      by_cases hpos : pos = s.items.size
      · simp [hid, hpos]
      · simp [hid, hpos, Ne.symm hpos, hid ▸ hold]
    · rw [if_neg hid, hbefore]
      by_cases hpos : pos = s.items.size
      · simp [hpos, Ne.symm hid]
      · rw [if_neg hpos]

theorem Sound.append {s : Sequence} (hs : s.Sound) (a : List Line) : (s.append a).Sound := by
  induction a generalizing s with
  | nil => exact hs
  | cons l a ih => exact ih (hs.push l)

/-- A new line is found by its number. -/
theorem Sound.position?_append {s : Sequence} (hs : s.Sound) {a : List Line} {i : Nat}
    (hi : i < a.length) : (s.append a).position? (s.next + i) = some (s.items.size + i) := by
  refine (hs.append a).indexed.2 ⟨a[i], ?_⟩
  rw [append_eq, Array.getElem?_append_right (Nat.le_add_right ..), Nat.add_sub_cancel_left,
    List.getElem?_toArray, getElem?_number, List.getElem?_eq_getElem hi]
  rfl

theorem mem_ids_ofLines {a : List Line} {id : EntryId} (h : id < a.length) :
    id ∈ (ofLines a).items.toList.map (·.id) := by
  rw [ofLines_eq]
  refine List.mem_map.2 ⟨⟨0 + id, a[id]⟩, List.mem_of_getElem? (i := id) ?_, Nat.zero_add id⟩
  rw [getElem?_number, List.getElem?_eq_getElem h]
  rfl

/-- A pending jump gets its target. -/
theorem Sound.patch_append {s : Sequence} (hs : s.Sound) (a b : List Line) (kind : JumpKind)
    (label : String) :
    (s.append (a ++ Code.jump kind "" :: b)).patch (s.next + a.length) label =
      .ok (s.append (a ++ Code.jump kind label :: b)) := by
  have hpos := hs.position?_append (a := a ++ Code.jump kind "" :: b) (i := a.length) (by simp)
  have haim : aim label (Code.jump kind "") = some (Code.jump kind label) := by
    simp [aim, Code.jump]
  obtain ⟨⟨items⟩, index, next⟩ := s
  have happend : ∀ target,
      (⟨⟨items⟩, index, next⟩ : Sequence).append (a ++ Code.jump kind target :: b) =
      ⟨((items ++ number next a) ++ ⟨next + a.length, Code.jump kind target⟩ ::
        number (next + a.length + 1) b).toArray,
        index ++ ((List.range' items.length (a.length + (b.length + 1))).map some).toArray,
        next + (a.length + (b.length + 1))⟩ := by
    intro target
    simp [append_eq, number_append, number]
  have hsize : items.length + a.length = (items ++ number next a).length := by simp
  rw [happend] at hpos ⊢
  rw [List.size_toArray, hsize] at hpos
  simp only [patch, hpos, List.getElem?_toArray, List.getElem?_append_right (Nat.le_refl _),
    Nat.sub_self, List.getElem?_cons_zero, Option.bind_some, haim, List.modify_toArray,
    List.modify_eq_take_drop, List.take_left, List.drop_left, List.modifyHead_cons, happend]

end Sequence

/-! ### The exits of tests -/

namespace Code

/-- The lines of a test whose exits lead where `target` says. -/
def closeWith (target : Bool → String) (test : List TestLine) : List Line :=
  test.map fun
    | .line l => l
    | .exit outcome kind => jump kind (target outcome)

theorem closeTest_eq (yes no : String) (test : List TestLine) :
    closeTest yes no test = closeWith (fun outcome => if outcome then yes else no) test := rfl

/-- The numbers of the exits for an outcome, for a test whose first line has number `pos`. -/
def exitIds (outcome : Bool) (pos : EntryId) : List TestLine → List EntryId
  | [] => []
  | .line _ :: rest => exitIds outcome (pos + 1) rest
  | .exit other _ :: rest =>
      if other = outcome then pos :: exitIds outcome (pos + 1) rest
      else exitIds outcome (pos + 1) rest

theorem exitIds_append (outcome : Bool) (pos : EntryId) (a b : List TestLine) :
    exitIds outcome pos (a ++ b) = exitIds outcome pos a ++ exitIds outcome (pos + a.length) b := by
  induction a generalizing pos with
  | nil => simp [exitIds]
  | cons l a ih =>
    have hpos : pos + 1 + a.length = pos + (l :: a).length := by
      rw [List.length_cons, Nat.add_assoc, Nat.add_comm 1]
    cases l with
    | line l => rw [List.cons_append, exitIds, ih, exitIds, hpos]
    | exit other kind =>
      rw [List.cons_append, exitIds, exitIds, ih, hpos]
      split <;> rfl

@[simp] theorem exitIds_map_line (outcome : Bool) (pos : EntryId) (lines : List Line) :
    exitIds outcome pos (lines.map .line) = [] := by
  induction lines generalizing pos with
  | nil => rfl
  | cons l lines ih => exact ih (pos + 1)

@[simp] theorem length_closeTest (yes no : String) (test : List TestLine) :
    (closeTest yes no test).length = test.length := List.length_map ..

end Code

namespace Sequence

theorem patchAll_cons (s : Sequence) (id : EntryId) (ids : List EntryId) (label : String) :
    s.patchAll (id :: ids) label = (s.patch id label).bind (·.patchAll ids label) := rfl

/-- The exits for one outcome get their target. -/
theorem Sound.patchAll_closeWith {s : Sequence} (hs : s.Sound) {target : Bool → String}
    {outcome : Bool} (h : target outcome = "") (label : String) (a b : List Line)
    (test : List TestLine) :
    (s.append (a ++ (Code.closeWith target test ++ b))).patchAll
      (Code.exitIds outcome (s.next + a.length) test) label =
      .ok (s.append (a ++ (Code.closeWith (Function.update target outcome label) test ++ b))) := by
  induction test generalizing a with
  | nil => rfl
  | cons l test ih =>
    cases l with
    | line l =>
      have := ih (a ++ [l])
      simpa [Code.exitIds, Code.closeWith, Nat.add_assoc] using this
    | exit other kind =>
      by_cases ho : other = outcome
      · subst ho
        have hpatch := hs.patch_append a (Code.closeWith target test ++ b) kind label
        have hrest := ih (a ++ [Code.jump kind label])
        have hcons : ∀ t : Bool → String, Code.closeWith t (.exit other kind :: test) =
          Code.jump kind (t other) :: Code.closeWith t test := fun _ => rfl
        rw [hcons, hcons, h, Function.update_self, Code.exitIds, if_pos rfl, patchAll_cons,
          List.cons_append, hpatch]
        simpa [Except.bind, Nat.add_assoc] using hrest
      · have := ih (a ++ [Code.jump kind (target other)])
        simpa [Code.exitIds, Code.closeWith, ho, Nat.add_assoc] using this

/-- The exits that stand for truth get their target. -/
theorem Sound.patchAll_true {s : Sequence} (hs : s.Sound) (no label : String) (a b : List Line)
    (test : List TestLine) :
    (s.append (a ++ (Code.closeTest "" no test ++ b))).patchAll
      (Code.exitIds true (s.next + a.length) test) label =
      .ok (s.append (a ++ (Code.closeTest label no test ++ b))) := by
  rw [Code.closeTest_eq, hs.patchAll_closeWith (by simp), Code.closeTest_eq]
  congr 5
  funext outcome
  cases outcome <;> simp

/-- The exits that stand for failure get their target. -/
theorem Sound.patchAll_false {s : Sequence} (hs : s.Sound) (yes label : String) (a b : List Line)
    (test : List TestLine) :
    (s.append (a ++ (Code.closeTest yes "" test ++ b))).patchAll
      (Code.exitIds false (s.next + a.length) test) label =
      .ok (s.append (a ++ (Code.closeTest yes label test ++ b))) := by
  rw [Code.closeTest_eq, hs.patchAll_closeWith (by simp), Code.closeTest_eq]
  congr 5
  funext outcome
  cases outcome <;> simp

/-! ### Edits -/

/-- What stands in the place of a line after an edit. -/
def afterEdit (edit : Option Edit) (l : Line) : List Line :=
  match edit with
  | none => [l]
  | some edit => edit.lines ++ if edit.keeps then [l] else []

@[simp] theorem map_line_number (n : EntryId) (a : List Line) :
    (number n a).map (·.line) = a := by
  induction a generalizing n with
  | nil => rfl
  | cons l a ih => simp [number, ih]

theorem map_line_edited (edit? : EntryId → Option Edit) (next n : EntryId) (a : List Line) :
    (edited edit? next (number n a)).1.map (·.line) =
      (a.zipIdx n).flatMap fun (l, i) => afterEdit (edit? i) l := by
  induction a generalizing next n with
  | nil => rfl
  | cons l a ih =>
    rw [number, edited, List.zipIdx_cons, List.flatMap_cons]
    cases hedit : edit? n with
    | none => simp [afterEdit, hedit, ih]
    | some edit =>
      cases hkeeps : edit.keeps <;> simp [afterEdit, hedit, hkeeps, ih]

/-- The lines after a splice. -/
theorem lines_splice {a : List Line} {edits : List (EntryId × Edit)} {s : Sequence}
    (h : (ofLines a).splice edits = .ok s) :
    s.lines = a.zipIdx.flatMap fun (l, i) => afterEdit (editOf? edits i) l := by
  unfold splice at h
  split at h
  · cases h
  · cases h
    rw [lines, ofLines_eq]
    exact map_line_edited ..

end Sequence

end NibblePascal
