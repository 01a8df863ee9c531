import NibblePascal.Assembly.Peephole
import NibblePascal.Proofs.Machine.Placement

/-!
# Tidied code

Tidying takes lines out of finished code and changes nothing else.  The lines that go are loads
and stores of single cells, jumps and the marks of released temporaries, so the labels stay, and
no jump gets a new target.

* `Tidied a b`: the lines `a` are left of the lines `b`;
* `tidied_tidy`: this is what `tidy` does.
-/

namespace NibblePascal

/-- Lines that tidying may take out. -/
def Line.isLoose : Line → Bool
  | .inst (.lda (.mem _)) | .inst (.sta (.mem _)) | .inst (.jump _ _) | .release _ => true
  | _ => false

/-- The first lines are left of the second ones when some loose lines are taken out. -/
inductive Tidied : List Line → List Line → Prop
  | nil : Tidied [] []
  | keep {a b : List Line} (l : Line) (h : Tidied a b) : Tidied (l :: a) (l :: b)
  | drop {a b : List Line} {l : Line} (hl : l.isLoose = true) (h : Tidied a b) : Tidied a (l :: b)

namespace Tidied

variable {a b c : List Line}

theorem refl (a : List Line) : Tidied a a := by
  induction a with
  | nil => exact .nil
  | cons l a ih => exact .keep l ih

theorem trans (h : Tidied a b) (h' : Tidied b c) : Tidied a c := by
  induction h' generalizing a with
  | nil => exact h
  | drop hl _ ih => exact .drop hl (ih h)
  | keep l _ ih =>
    cases h with
    | keep _ h => exact .keep l (ih h)
    | drop hl h => exact .drop hl (ih h)

theorem sublist (h : Tidied a b) : a.Sublist b := by
  induction h with
  | nil => exact .slnil
  | keep l _ ih => exact ih.cons_cons l
  | drop _ _ ih => exact ih.cons _

/-- No label is taken out. -/
theorem labelNames_eq (h : Tidied a b) : labelNames a = labelNames b := by
  induction h with
  | nil => rfl
  | keep l _ ih =>
    unfold labelNames at ih ⊢
    rw [List.filterMap_cons, List.filterMap_cons, ih]
  | @drop _ b l hl _ ih =>
    have hlabel : l.label? = none := by cases l <;> first | rfl | cases hl
    rw [ih, labelNames, labelNames, List.filterMap_cons_none hlabel]

theorem jumpTargets_subset (h : Tidied a b) : jumpTargets a ⊆ jumpTargets b :=
  (h.sublist.filterMap _).subset

end Tidied

/-- Tidied code can be run if the code could be. -/
theorem Image.Closed.tidied {a b : List Line} (h : Closed b) (ht : Tidied a b) : Closed a where
  nodup := by
    rw [ht.labelNames_eq]
    exact h.nodup
  jumps := by
    intro t hmem
    rw [ht.labelNames_eq]
    exact h.jumps t (ht.jumpTargets_subset hmem)
  noRaw := fun l hl => h.noRaw l (ht.sublist.subset hl)

/-! ### The two passes -/

theorem tidied_dropRedundantFrom (before lines : List Line) :
    ∃ kept, dropRedundantFrom before lines = before.reverse ++ kept ∧ Tidied kept lines := by
  induction lines generalizing before with
  | nil => exact ⟨[], by simp [dropRedundantFrom], .nil⟩
  | cons l rest ih =>
    rw [dropRedundantFrom]
    split
    case isTrue hdrop =>
      obtain ⟨kept, heq, hkept⟩ := ih before
      have hloose : l.isLoose = true := by
        unfold isReload isIdleJump at hdrop
        split at hdrop <;> split at hdrop <;> simp_all [Line.isLoose]
      exact ⟨kept, heq, .drop hloose hkept⟩
    case isFalse =>
      obtain ⟨kept, heq, hkept⟩ := ih (l :: before)
      exact ⟨l :: kept, by simp [heq], .keep l hkept⟩

theorem tidied_dropRedundant (lines : List Line) : Tidied (dropRedundant lines) lines := by
  obtain ⟨kept, heq, hkept⟩ := tidied_dropRedundantFrom [] lines
  rw [dropRedundant, heq]
  exact hkept

/-- The mark of a release is taken out. -/
theorem tidied_of_withoutRelease? {addr : Nat} {lines rest : List Line}
    (h : withoutRelease? addr lines = some rest) : Tidied rest lines := by
  induction lines generalizing rest with
  | nil => cases h
  | cons l lines ih =>
    rw [withoutRelease?] at h
    split at h
    case isTrue hl =>
      obtain rfl := Option.some.inj h
      exact .drop (by rw [eq_of_beq hl]; rfl) (.refl _)
    case isFalse =>
      split at h
      · cases h
      · obtain ⟨tail, htail, rfl⟩ := Option.map_eq_some_iff.1 h
        exact .keep l (ih htail)

theorem tidied_dropDeadStores (lines : List Line) : Tidied (dropDeadStores lines) lines := by
  fun_induction dropDeadStores lines with
  | case1 => exact .nil
  | case2 l rest shorter h ih =>
    obtain ⟨addr, hstore, hshorter⟩ := Option.bind_eq_some_iff.1 h
    have hloose : l.isLoose = true := by
      unfold storedCell? at hstore
      split at hstore
      · rfl
      · cases hstore
    exact .drop hloose (ih.trans (tidied_of_withoutRelease? hshorter))
  | case3 l rest h ih => exact .keep l ih

theorem tidied_tidy (lines : List Line) : Tidied (tidy lines) lines :=
  (tidied_dropDeadStores _).trans (tidied_dropRedundant lines)

end NibblePascal
