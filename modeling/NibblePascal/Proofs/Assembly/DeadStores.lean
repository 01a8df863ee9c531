import NibblePascal.Assembly.Peephole

/-!
# Stores that are dead

A store is dead if its cell is released before anything uses it.

* `withoutRelease?_eq_some_iff` says where the mark of that release stands;
* `Overwritten addr lines`: the lines do not read the cell before they store into it;
* `Recycled lines`: so it is with every cell behind the mark of its release.
-/

namespace NibblePascal

variable {addr : Nat} {l : Line} {lines rest a b : List Line}

theorem withoutRelease?_eq_some_iff : withoutRelease? addr lines = some rest ↔
    ∃ a b, lines = a ++ .release addr :: b ∧ rest = a ++ b
      ∧ ∀ l ∈ a, l ≠ .release addr ∧ mayUse addr l = false := by
  induction lines generalizing rest with
  | nil => simp [withoutRelease?]
  | cons l lines ih =>
    rw [withoutRelease?]
    by_cases hrelease : l = .release addr
    · subst hrelease
      rw [if_pos (beq_self_eq_true _), Option.some.injEq]
      constructor
      · rintro rfl
        exact ⟨[], lines, rfl, rfl, by simp⟩
      · rintro ⟨a, b, hlines, rfl, ha⟩
        cases a with
        | nil => exact (List.cons.inj hlines).2
        | cons l a => exact absurd (List.cons.inj hlines).1.symm (ha l List.mem_cons_self).1
    rw [if_neg (by simpa using hrelease)]
    by_cases huse : mayUse addr l = true
    · rw [if_pos huse]
      constructor
      · intro h
        cases h
      · rintro ⟨a, b, hlines, rfl, ha⟩
        cases a with
        | nil => exact absurd (List.cons.inj hlines).1 hrelease
        | cons l' a =>
          obtain ⟨rfl, -⟩ := List.cons.inj hlines
          exact absurd huse (by simp [(ha l List.mem_cons_self).2])
    · rw [if_neg huse, Option.map_eq_some_iff]
      rw [Bool.not_eq_true] at huse
      constructor
      · rintro ⟨tail, htail, rfl⟩
        obtain ⟨a, b, rfl, rfl, ha⟩ := ih.1 htail
        exact ⟨l :: a, b, rfl, rfl, List.forall_mem_cons.2 ⟨⟨hrelease, huse⟩, ha⟩⟩
      · rintro ⟨a, b, hlines, rfl, ha⟩
        cases a with
        | nil => exact absurd (List.cons.inj hlines).1 hrelease
        | cons l' a =>
          obtain ⟨rfl, rfl⟩ := List.cons.inj hlines
          exact ⟨a ++ b, ih.2 ⟨a, b, rfl, rfl, (List.forall_mem_cons.1 ha).2⟩, rfl⟩

theorem eq_of_storedCell? (h : storedCell? l = some addr) : l = .inst (.sta (.mem addr)) := by
  unfold storedCell? at h
  split at h
  · rw [Option.some.inj h]
  · cases h

/-- A search that looks past marks finds the same without one. -/
theorem find?_append_release {p : Line → Bool} (hp : p (.release addr) = false) (a b : List Line) :
    (a ++ .release addr :: b).find? p = (a ++ b).find? p := by
  rw [List.find?_append, List.find?_append, List.find?_cons_of_neg (by simp [hp])]

/-! ### Cells that are stored into before they are read -/

/-- The cell that a line accesses directly. -/
def Line.directCell? : Line → Option Nat
  | .inst (.lda (.mem addr)) | .inst (.sta (.mem addr)) => some addr
  | _ => none

/-- The first direct access to the cell, if there is any, is a store. -/
def Overwritten (addr : Nat) (lines : List Line) : Prop :=
  lines.find? (·.directCell? == some addr) ≠ some (.inst (.lda (.mem addr)))

instance : Decidable (Overwritten addr lines) :=
  inferInstanceAs (Decidable (_ ≠ _))

theorem not_overwritten_load : ¬ Overwritten addr (.inst (.lda (.mem addr)) :: lines) :=
  fun h => h (List.find?_cons_of_pos (beq_self_eq_true _))

theorem overwritten_cons (h : l.directCell? ≠ some addr) :
    Overwritten addr (l :: lines) ↔ Overwritten addr lines := by
  rw [Overwritten, List.find?_cons_of_neg (by simpa using h), Overwritten]

theorem overwritten_append (h : ∀ l ∈ a, l.directCell? ≠ some addr) :
    Overwritten addr (a ++ b) ↔ Overwritten addr b := by
  induction a with
  | nil => rfl
  | cons l a ih =>
    obtain ⟨hl, ha⟩ := List.forall_mem_cons.1 h
    rw [List.cons_append, overwritten_cons hl, ih ha]

/-- A mark makes no difference. -/
theorem overwritten_release {other : Nat} :
    Overwritten addr (a ++ .release other :: b) ↔ Overwritten addr (a ++ b) := by
  rw [Overwritten, find?_append_release rfl, Overwritten]

/-- The cell whose release a line marks. -/
def Line.released? : Line → Option Nat
  | .release addr => some addr
  | _ => none

/-- Behind each mark of a release the next direct access to the cell, if there is any, is a
store. -/
def Recycled : List Line → Prop
  | [] => True
  | l :: lines => (∀ addr ∈ l.released?, Overwritten addr lines) ∧ Recycled lines

instance Recycled.decidable : (lines : List Line) → Decidable (Recycled lines)
  | [] => inferInstanceAs (Decidable True)
  | _ :: lines =>
      have := Recycled.decidable lines
      inferInstanceAs (Decidable (_ ∧ _))

theorem Recycled.overwritten (h : Recycled (a ++ .release addr :: b)) : Overwritten addr b := by
  induction a with
  | nil => exact h.1 addr rfl
  | cons l a ih => exact ih h.2

/-- A mark is taken out. -/
theorem Recycled.drop {other : Nat} (h : Recycled (a ++ .release other :: b)) :
    Recycled (a ++ b) := by
  induction a with
  | nil => exact h.2
  | cons l a ih => exact ⟨fun addr hl => overwritten_release.1 (h.1 addr hl), ih h.2⟩

theorem directCell?_of_mayUse (h : mayUse addr l = false) : l.directCell? ≠ some addr := by
  unfold Line.directCell?
  split <;> simp_all [mayUse]

end NibblePascal
