import NibblePascal.Assembly.Peephole

/-!
# Code without redundant lines

The pass over redundant lines goes down the code and knows what it has kept.

* `visible? lines` is the first line that counts for a reload;
* `Reduced before lines kept`: of `lines`, which follow the lines `before` that were kept, the
  nearest first, the lines `kept` are left;
* `reduced_dropRedundant`: this is what the pass does;
* `Reduced.split`: it does so with every end of the code.
-/

namespace NibblePascal

/-- The first line that is not transparent. -/
def visible? (lines : List Line) : Option Line := lines.find? (!·.isTransparent)

theorem visible?_cons {l : Line} (h : l.isTransparent = false) (lines : List Line) :
    visible? (l :: lines) = some l :=
  List.find?_cons_of_pos (by simp [h])

theorem visible?_cons_transparent {l : Line} (h : l.isTransparent = true) (lines : List Line) :
    visible? (l :: lines) = visible? lines :=
  List.find?_cons_of_neg (by simp [h])

/-- The lines `kept` are left of `lines`, which follow the kept lines `before`, when reloads and
idle jumps are taken out. -/
inductive Reduced : List Line → List Line → List Line → Prop
  | nil (before : List Line) : Reduced before [] []
  | keep {before rest kept : List Line} {l : Line} (hl : isReload before l = false)
      (h : Reduced (l :: before) rest kept) : Reduced before (l :: rest) (l :: kept)
  | reload {before rest kept : List Line} {addr : Nat}
      (hbefore : visible? before = some (.inst (.sta (.mem addr))))
      (h : Reduced before rest kept) : Reduced before (.inst (.lda (.mem addr)) :: rest) kept
  | idle {before rest kept : List Line} {kind : JumpKind} {target : String}
      (hafter : rest.find? (!·.isComment) = some (.label target))
      (h : Reduced before rest kept) : Reduced before (.inst (.jump kind target) :: rest) kept

theorem exists_of_isReload {before : List Line} {l : Line} (h : isReload before l = true) :
    ∃ addr, l = .inst (.lda (.mem addr)) ∧ visible? before = some (.inst (.sta (.mem addr))) := by
  unfold isReload at h
  split at h
  · exact ⟨_, rfl, eq_of_beq h⟩
  · cases h

theorem exists_of_isIdleJump {after : List Line} {l : Line} (h : isIdleJump after l = true) :
    ∃ kind target, l = .inst (.jump kind target)
      ∧ after.find? (!·.isComment) = some (.label target) := by
  unfold isIdleJump at h
  split at h
  · exact ⟨_, _, rfl, eq_of_beq h⟩
  · cases h

theorem reduced_dropRedundantFrom (before lines : List Line) :
    ∃ kept, dropRedundantFrom before lines = before.reverse ++ kept
      ∧ Reduced before lines kept := by
  induction lines generalizing before with
  | nil => exact ⟨[], (List.append_nil _).symm, .nil before⟩
  | cons l rest ih =>
    rw [dropRedundantFrom]
    by_cases hreload : isReload before l = true
    · obtain ⟨addr, rfl, hbefore⟩ := exists_of_isReload hreload
      obtain ⟨kept, heq, hkept⟩ := ih before
      exact ⟨kept, by rw [hreload, Bool.true_or, if_pos rfl, heq], .reload hbefore hkept⟩
    rw [Bool.not_eq_true] at hreload
    by_cases hidle : isIdleJump rest l = true
    · obtain ⟨kind, target, rfl, hafter⟩ := exists_of_isIdleJump hidle
      obtain ⟨kept, heq, hkept⟩ := ih before
      exact ⟨kept, by rw [hidle, Bool.or_true, if_pos rfl, heq], .idle hafter hkept⟩
    · rw [Bool.not_eq_true] at hidle
      obtain ⟨kept, heq, hkept⟩ := ih (l :: before)
      refine ⟨l :: kept, ?_, .keep hreload hkept⟩
      rw [hreload, hidle, Bool.or_self, if_neg Bool.false_ne_true, heq, List.reverse_cons,
        List.append_assoc, List.singleton_append]

theorem reduced_dropRedundant (lines : List Line) : Reduced [] lines (dropRedundant lines) := by
  obtain ⟨kept, heq, hkept⟩ := reduced_dropRedundantFrom [] lines
  rw [dropRedundant, heq]
  exact hkept

namespace Reduced

variable {before a b kept : List Line}

/-- What is left of an end of the code. -/
theorem split (h : Reduced before (a ++ b) kept) :
    ∃ ka kb, kept = ka ++ kb ∧ Reduced (ka.reverse ++ before) b kb := by
  induction a generalizing before kept with
  | nil => exact ⟨[], kept, rfl, h⟩
  | cons l a ih =>
    cases h with
    | keep _ h =>
      obtain ⟨ka, kb, rfl, hb⟩ := ih h
      refine ⟨l :: ka, kb, rfl, ?_⟩
      rwa [List.reverse_cons, List.append_assoc, List.singleton_append]
    | reload _ h => exact ih h
    | idle _ h => exact ih h

end Reduced

end NibblePascal
