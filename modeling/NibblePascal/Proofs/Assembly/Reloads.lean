import NibblePascal.Proofs.Assembly.Frugal

/-!
# Tidied code has no reloads

The first pass leaves no load of a cell that was stored into just before.  The second pass takes
out stores, which could bring such a pair together again: a store, a dead store, and a load of the
first cell.  In frugal code it does not, since no dead store comes right before a load.

* `Fresh before lines`: the lines, which follow the lines `before`, the nearest first, have no
  reload;
* `Spared lines`: something other than a load comes behind every dead store;
* `Reduced.fresh` and `Reduced.spared`: so it is after the first pass;
* `Fresh.dropDeadStores`: the second pass brings no reload back.
-/

namespace NibblePascal

variable {addr : Nat} {l : Line} {before before' lines rest kept a b : List Line}

theorem Line.exists_of_isLoad (h : l.isLoad = true) : ∃ addr, l = Code.load addr := by
  unfold isLoad at h
  split at h
  · exact ⟨_, rfl⟩
  · cases h

theorem Line.isLoad_of_isTransparent (h : l.isTransparent = true) : l.isLoad = false := by
  rw [← Bool.not_eq_true]
  intro hload
  obtain ⟨addr, rfl⟩ := exists_of_isLoad hload
  cases h

theorem Line.isTransparent_of_isComment (h : l.isComment = true) : l.isTransparent = true := by
  unfold isTransparent
  split
  exacts [rfl, h]

/-! ### Dead stores -/

/-- A store into the cell is dead before the lines. -/
def Dead (addr : Nat) (lines : List Line) : Prop := (withoutRelease? addr lines).isSome

theorem not_dead_nil : ¬ Dead addr [] := nofun

theorem dead_cons : Dead addr (l :: lines) ↔
    l = .release addr ∨ mayUse addr l = false ∧ Dead addr lines := by
  rw [Dead, withoutRelease?]
  by_cases hrelease : l = .release addr
  · simp [hrelease]
  · cases huse : mayUse addr l <;> simp [hrelease, Dead]

/-- One more mark leaves dead what was dead. -/
theorem Dead.insert_release (h : Dead addr (a ++ b)) (other : Nat) :
    Dead addr (a ++ .release other :: b) := by
  induction a with
  | nil => exact dead_cons.2 (.inr ⟨rfl, h⟩)
  | cons l a ih => exact dead_cons.2 ((dead_cons.1 h).imp_right fun h => ⟨h.1, ih h.2⟩)

theorem used_release : Used (a ++ .release addr :: b) ↔ Used (a ++ b) := by
  rw [Used, visible?, find?_append_release rfl, Used, visible?]

/-- Behind every dead store stands something other than a load. -/
def Spared : List Line → Prop
  | [] => True
  | l :: lines => (∀ addr ∈ storedCell? l, Dead addr lines → Used lines) ∧ Spared lines

/-- A mark is taken out. -/
theorem Spared.drop (h : Spared (a ++ .release addr :: b)) : Spared (a ++ b) := by
  induction a with
  | nil => exact h.2
  | cons l a ih =>
    exact ⟨fun cell hl hdead => used_release.1 (h.1 cell hl (hdead.insert_release addr)), ih h.2⟩

/-! ### Lines without reloads -/

/-- No line is the reload of a cell, where the lines follow the lines `before`, the nearest
first. -/
def Fresh (before : List Line) : List Line → Prop
  | [] => True
  | l :: lines => isReload before l = false ∧ Fresh (l :: before) lines

theorem isReload_congr (h : visible? before = visible? before') (l : Line) :
    isReload before l = isReload before' l := by
  unfold isReload
  split
  · rw [← visible?, h, visible?]
  · rfl

theorem isReload_of_isLoad (h : l.isLoad = false) : isReload before l = false := by
  rw [← Bool.not_eq_true]
  intro hreload
  obtain ⟨addr, rfl, -⟩ := exists_of_isReload hreload
  cases h

/-- The next line to look at decides what comes before the others. -/
theorem visible?_cons_congr (h : visible? before = visible? before') (l : Line) :
    visible? (l :: before) = visible? (l :: before') := by
  cases ht : l.isTransparent with
  | true => rw [visible?_cons_transparent ht, visible?_cons_transparent ht, h]
  | false => rw [visible?_cons ht, visible?_cons ht]

namespace Fresh

theorem congr (h : Fresh before lines) (heq : visible? before = visible? before') :
    Fresh before' lines := by
  induction lines generalizing before before' with
  | nil => trivial
  | cons l lines ih =>
    exact ⟨isReload_congr heq l ▸ h.1, ih h.2 (visible?_cons_congr heq l)⟩

/-- Lines that do not begin with a load are no reloads anywhere. -/
theorem of_used (h : Fresh before lines) (hused : Used lines) (before' : List Line) :
    Fresh before' lines := by
  induction lines generalizing before before' with
  | nil => trivial
  | cons l lines ih =>
    cases ht : l.isTransparent with
    | true =>
      exact ⟨isReload_of_isLoad (Line.isLoad_of_isTransparent ht),
        ih h.2 ((used_cons_transparent ht).1 hused) _⟩
    | false =>
      refine ⟨isReload_of_isLoad (hused.isLoad_eq ht), h.2.congr ?_⟩
      rw [visible?_cons ht, visible?_cons ht]

theorem drop (h : Fresh before (a ++ .release addr :: b)) : Fresh before (a ++ b) := by
  induction a generalizing before with
  | nil => exact h.2.congr (visible?_cons_transparent rfl before)
  | cons l a ih => exact ⟨h.1, ih h.2⟩

theorem not_reload (h : Fresh before (a ++ l :: b)) : isReload (a.reverse ++ before) l = false := by
  induction a generalizing before with
  | nil => exact h.1
  | cons l' a ih =>
    rw [List.reverse_cons, List.append_assoc, List.singleton_append]
    exact ih h.2

/-- The second pass brings no reload back where no load comes behind a dead store. -/
theorem dropDeadStores (h : Fresh before lines) (hs : Spared lines) :
    Fresh before (dropDeadStores lines) := by
  fun_induction NibblePascal.dropDeadStores lines generalizing before with
  | case1 => trivial
  | case2 l rest shorter hshorter ih =>
    obtain ⟨addr, hl, hrest⟩ := Option.bind_eq_some_iff.1 hshorter
    obtain ⟨a, b, rfl, rfl, -⟩ := withoutRelease?_eq_some_iff.1 hrest
    have hused := hs.1 addr hl (Option.isSome_of_eq_some hrest)
    exact ih (h.2.drop.of_used (used_release.1 hused) before) hs.2.drop
  | case3 l rest _ ih => exact ⟨h.1, ih h.2 hs.2⟩

end Fresh

/-! ### After the first pass -/

/-- The cell is loaded before it is released. -/
def ReadFirst (addr : Nat) (lines : List Line) : Prop :=
  ∀ a b, lines = a ++ .release addr :: b → Code.load addr ∈ a

/-- What is loaded is used, and what is stored is loaded before it is released. -/
def Careful : List Line → Prop
  | [] => True
  | l :: lines => (l.isLoad = true → Used lines) ∧ (∀ addr ∈ storedCell? l, ReadFirst addr lines)
      ∧ Careful lines

theorem LastRead.mem_of_store (h : LastRead addr (a ++ Code.store addr :: b)) :
    Code.load addr ∈ b := by
  obtain ⟨c, d, heq, hd⟩ := h
  obtain ⟨e, -, rfl⟩ | ⟨e, -, hb⟩ := append_eq_append_cons heq
  · simp at hd
  · cases e with
    | nil => cases hb
    | cons l e =>
      obtain ⟨-, rfl⟩ := List.cons.inj hb
      simp

/-- Frugal code is careful, from any place on. -/
theorem Frugal.careful (h : Frugal (a ++ lines)) : Careful lines := by
  induction lines generalizing a with
  | nil => trivial
  | cons l lines ih =>
    refine ⟨fun hl => ?_, fun addr hl c d heq => ?_, ih (a := a ++ [l]) (by simpa using h)⟩
    · obtain ⟨addr, rfl⟩ := Line.exists_of_isLoad hl
      exact h.used a lines addr rfl
    · obtain rfl : l = Code.store addr := eq_of_storedCell? hl
      have hread := h.read (a ++ Code.store addr :: c) d addr (by simp [heq])
      exact hread.mem_of_store

theorem ReadFirst.tail (h : ReadFirst addr (l :: lines)) (hl : l ≠ Code.load addr) :
    ReadFirst addr lines := by
  rintro a b rfl
  exact (List.mem_cons.1 (h (l :: a) b rfl)).resolve_left hl.symm

namespace Reduced

theorem fresh (h : Reduced before lines kept) : Fresh before kept := by
  induction h with
  | nil => trivial
  | keep hl _ ih => exact ⟨hl, ih⟩
  | reload _ _ ih => exact ih
  | idle _ _ ih => exact ih

/-- The target of an idle jump stays. -/
theorem visible?_kept (h : Reduced before lines kept) {target : String}
    (htarget : lines.find? (!·.isComment) = some (.label target)) :
    visible? kept = some (.label target) := by
  induction h with
  | nil => cases htarget
  | @keep before rest kept l _ _ ih =>
    cases hc : l.isComment with
    | true =>
      rw [List.find?_cons_of_neg (by simp [hc])] at htarget
      rw [visible?_cons_transparent (Line.isTransparent_of_isComment hc)]
      exact ih htarget
    | false =>
      rw [List.find?_cons_of_pos (by simp [hc]), Option.some.injEq] at htarget
      subst htarget
      exact visible?_cons rfl _
  | reload => cases htarget
  | idle => cases htarget

theorem used (h : Reduced before lines kept) (hused : Used lines) : Used kept := by
  induction h with
  | nil => exact hused
  | @keep before rest kept l _ _ ih =>
    cases ht : l.isTransparent with
    | true =>
      rw [used_cons_transparent ht] at hused ⊢
      exact ih hused
    | false => exact used_cons ht (hused.isLoad_eq ht)
  | reload => cases hused.isLoad_eq rfl
  | idle hafter h => exact ⟨_, h.visible?_kept hafter, rfl⟩

/-- A cell that is released without a load in the kept lines is so in the lines, unless it is
stored into just before them. -/
theorem exists_release (h : Reduced before lines kept)
    (hbefore : visible? before ≠ some (Code.store addr)) (hdead : Dead addr kept) :
    ∃ a b, lines = a ++ .release addr :: b ∧ Code.load addr ∉ a := by
  induction h with
  | nil => exact absurd hdead not_dead_nil
  | @keep before rest kept l _ _ ih =>
    obtain rfl | ⟨huse, hdead⟩ := dead_cons.1 hdead
    · exact ⟨[], rest, rfl, List.not_mem_nil⟩
    · have hnext : visible? (l :: before) ≠ some (Code.store addr) := by
        cases ht : l.isTransparent with
        | true => rwa [visible?_cons_transparent ht]
        | false =>
          rw [visible?_cons ht]
          rintro ⟨rfl⟩
          simp [mayUse, Code.store] at huse
      obtain ⟨a, b, rfl, hload⟩ := ih hnext hdead
      refine ⟨l :: a, b, rfl, ?_⟩
      rw [List.mem_cons, not_or]
      refine ⟨?_, hload⟩
      rintro rfl
      simp [mayUse, Code.load] at huse
  | reload hstore _ ih =>
    obtain ⟨a, b, rfl, hload⟩ := ih hbefore hdead
    refine ⟨_ :: a, b, rfl, ?_⟩
    rw [List.mem_cons, not_or]
    refine ⟨?_, hload⟩
    rintro ⟨⟩
    exact hbefore hstore
  | idle _ _ ih =>
    obtain ⟨a, b, rfl, hload⟩ := ih hbefore hdead
    exact ⟨_ :: a, b, rfl, by simpa [Code.load] using hload⟩

/-- If a store became dead, then the load of its cell was taken out, and what used that load
comes first now. -/
theorem used_of_dead (h : Reduced before lines kept) (hc : Careful lines)
    (hread : ReadFirst addr lines) (hdead : Dead addr kept) : Used kept := by
  induction h with
  | nil => exact absurd hdead not_dead_nil
  | @keep before rest kept l _ h ih =>
    cases ht : l.isTransparent with
    | true =>
      rw [used_cons_transparent ht]
      obtain rfl | ⟨-, hdead⟩ := dead_cons.1 hdead
      · exact absurd (hread [] rest rfl) List.not_mem_nil
      · refine ih hc.2.2 (hread.tail ?_) hdead
        rintro rfl
        cases ht
    | false =>
      -- A load here is of another cell.  Behind it no load of this cell is taken out as a reload,
      -- so the release would find it unread.
      refine used_cons ht (Bool.not_eq_true _ ▸ fun hload => ?_)
      obtain ⟨other, rfl⟩ := Line.exists_of_isLoad hload
      obtain ⟨⟨⟩⟩ | ⟨huse, hdead⟩ := dead_cons.1 hdead
      have hne : Code.load addr ≠ Code.load other := by
        rintro ⟨⟩
        simp [mayUse, Code.load] at huse
      have hnext : visible? (Code.load other :: before) ≠ some (Code.store addr) := by
        rw [visible?_cons ht]
        rintro ⟨⟩
      obtain ⟨a, b, rfl, hnotin⟩ := h.exists_release hnext hdead
      exact absurd (hread (_ :: a) b rfl) (List.mem_cons.not.2 (not_or.2 ⟨hne, hnotin⟩))
  | reload _ h => exact h.used (hc.1 rfl)
  | idle hafter h => exact ⟨_, h.visible?_kept hafter, rfl⟩

theorem spared (h : Reduced before lines kept) (hc : Careful lines) : Spared kept := by
  induction h with
  | nil => trivial
  | @keep before rest kept l _ h ih =>
    refine ⟨fun addr hl hdead => ?_, ih hc.2.2⟩
    exact h.used_of_dead hc.2.2 (hc.2.1 addr hl) hdead
  | reload _ _ ih => exact ih hc.2.2
  | idle _ _ ih => exact ih hc.2.2

end Reduced

/-- Frugal code has no reload when it is tidied. -/
theorem Frugal.fresh_tidy (h : Frugal lines) : Fresh [] (tidy lines) := by
  have hreduced := reduced_dropRedundant lines
  exact hreduced.fresh.dropDeadStores (hreduced.spared (Frugal.careful (a := []) h))

end NibblePascal
