import NibblePascal.Proofs.Except
import NibblePascal.Proofs.Fragments.Element
import NibblePascal.Proofs.Storage.Ledger
import NibblePascal.Proofs.Storage.Symbols

/-!
# The bounds of the memory

Addresses are sixteen bits wide, and so is every number that the allocator computes with.
`Allocator.InBounds` keeps them far below that: scalars lie in the first 4096 cells, arrays in
slots of banks 1 to 15, and the elements of an array in its slot.  Whatever the allocator is asked
for, and whether it can give it or not, its bounds stay.
-/

namespace NibblePascal

namespace Allocator

variable {a a' : Allocator} {v : Var} {arr : ArrayVar} {w : Width} {name block : String}
  {isTemp : Bool} {len : Nat}

/-- A scalar gets the next free cells. -/
theorem of_define (hd : a.define name w block isTemp = (.ok v, a')) :
    a.free + w.cells ≤ scalarSpace ∧ v = ⟨name, w, a.free, block, isTemp⟩
      ∧ a' = { a with free := a.free + w.cells, vars := a.vars.push v } := by
  unfold define at hd
  split at hd
  · cases hd
  · rename_i hspace
    obtain ⟨rfl, rfl⟩ : _ = v ∧ _ = a' := by simpa using hd
    exact ⟨Nat.le_of_not_lt hspace, rfl, rfl⟩

/-- An array gets the next slot. -/
theorem of_defineArray (hd : a.defineArray name w len block = (.ok arr, a')) :
    a.bank ≤ lastBank ∧ arr = ⟨name, w, a.slot * slotSize, len, a.bank, block⟩
      ∧ a' = { a with
        slot := if a.slot + 1 = slotsPerBank then 0 else a.slot + 1
        bank := if a.slot + 1 = slotsPerBank then a.bank + 1 else a.bank
        arrays := a.arrays.push arr } := by
  unfold defineArray at hd
  split at hd
  · cases hd
  · rename_i hbank
    obtain ⟨rfl, rfl⟩ : _ = arr ∧ _ = a' := by simpa using hd
    exact ⟨Nat.le_of_not_lt hbank, rfl, rfl⟩

/-- What was given out lies within the memory, and a pool holds temporaries of its width. -/
structure InBounds (a : Allocator) : Prop where
  free_le : a.free ≤ scalarSpace
  scalar : ∀ v ∈ a.vars.toList, v.addr + v.cells ≤ a.free
  pool : ∀ w, ∀ v ∈ a.pools.get w, v.width = w
  bank_pos : 1 ≤ a.bank
  bank_le : a.bank ≤ lastBank + 1
  slot_lt : a.slot < slotsPerBank
  array : ∀ r ∈ a.arrays.toList, r.Placed ∧ r.size ≤ slotSize

namespace InBounds

theorem empty : InBounds {} where
  free_le := Nat.zero_le _
  scalar := nofun
  pool := by
    intro w v hv
    cases w <;> cases hv
  bank_pos := le_rfl
  bank_le := by decide
  slot_lt := by decide
  array := nofun

/-- The sum by which a scalar is refused has sixteen bits. -/
theorem sum_lt (h : a.InBounds) : a.free + Width.word.cells < 0x10000 :=
  Nat.lt_of_le_of_lt (Nat.add_le_add_right h.free_le _) (by decide)

theorem locate (h : a.InBounds) (pos : Pos) : (a.locate pos).InBounds := { h with }

theorem define (h : a.InBounds) (name : String) (w : Width) (block : String) (isTemp : Bool) :
    (a.define name w block isTemp).2.InBounds := by
  unfold Allocator.define
  split
  · exact h
  · rename_i hspace
    refine { h with free_le := Nat.le_of_not_lt hspace, scalar := fun v hv => ?_ }
    simp only [Array.toList_push, List.mem_append, List.mem_singleton] at hv
    obtain hv | rfl := hv
    · exact (h.scalar v hv).trans (Nat.le_add_right ..)
    · exact le_rfl

theorem temp (h : a.InBounds) (w : Width) : (a.temp w).2.InBounds := by
  unfold Allocator.temp
  split
  case h_1 u rest hpool =>
    have hrest : ∀ v ∈ rest, v.width = w := fun v hv => h.pool w v (by rw [hpool]; exact .tail _ hv)
    exact { h with pool := Pools.forall_set h.pool hrest }
  case h_2 =>
    have h' : ({ a with temps := a.temps + 1 } : Allocator).InBounds := { h with }
    exact h'.define ..

theorem release (h : a.InBounds) (v : Var) : (a.release v).InBounds := by
  unfold Allocator.release
  split
  · exact { h with
      pool := Pools.forall_set h.pool (List.forall_mem_cons.2 ⟨rfl, h.pool v.width⟩) }
  · exact h

theorem defineArray (h : a.InBounds) (name block : String) (hlen : len * w.cells ≤ slotSize) :
    (a.defineArray name w len block).2.InBounds := by
  have hpos := h.bank_pos
  have hslot := h.slot_lt
  unfold Allocator.defineArray
  split
  · exact h
  · rename_i hbank
    refine { h with bank_pos := ?_, bank_le := ?_, slot_lt := ?_, array := fun r hr => ?_ }
    · dsimp only
      split <;> omega
    · dsimp only
      split <;> omega
    · by_cases hfull : a.slot + 1 = slotsPerBank
      · simp [hfull]
        decide
      · simp only [hfull, beq_iff_eq, if_false]
        omega
    · simp only [Array.toList_push, List.mem_append, List.mem_singleton] at hr
      obtain hr | rfl := hr
      · exact h.array r hr
      · exact ⟨⟨hpos, Nat.le_of_not_lt hbank, a.slot, hslot, rfl⟩, hlen⟩

theorem defineVar (h : a.InBounds) (hd : a.defineVar name w block = (.ok v, a')) :
    a'.InBounds := by
  have := h.define name w block false
  rwa [← Allocator.defineVar, hd] at this

/-- The bounds hold whatever is in use. -/
theorem ledger (sc : Scope) : Ledger sc fun s _ => s.memory.InBounds where
  skip := fun _ h => h
  locate := fun pos h => h.locate pos
  perm := fun _ h => h
  take := by
    rintro s s' vs w v ⟨memory, ht, rfl⟩ h
    have := InBounds.temp h w
    rwa [ht] at this
  release := fun h => h.release _
  declared := fun _ h => h

/-- Every line of the symbol table can be written. -/
theorem exists_table (h : a.InBounds) : ∃ lines, a.table = .ok lines := by
  have hscalar : ∀ v ∈ a.vars.toList, ∃ line, v.tableLine = .ok line := by
    intro v hv
    have htop : v.top + 1 < 0x10000 := by
      have hcells := v.cells_le
      have haddr := (h.scalar v hv).trans h.free_le
      simp only [Var.top, scalarSpace] at *
      omega
    unfold Var.tableLine Var.checkedTop
    rw [if_pos htop]
    cases v.width <;> exact ⟨_, rfl⟩
  have harray : ∀ r ∈ a.arrays.toList, ∃ line, r.tableLine = .ok line := by
    intro r hr
    obtain ⟨⟨-, -, k, hk, haddr⟩, hsize⟩ := h.array r hr
    have hsmall : r.size < 0x10000 := lt_of_le_of_lt hsize (by decide)
    have hpast : ¬ 0x10000 ≤ r.addr + max r.size 1 := by
      rw [haddr]
      simp only [slotsPerBank, slotSize] at *
      omega
    unfold ArrayVar.tableLine ArrayVar.checkedSize
    rw [if_pos hsmall]
    simp only [bind, Except.bind, hpast, if_false]
    exact ⟨_, rfl⟩
  obtain ⟨vars, hvars⟩ := exists_mapM_ok hscalar
  obtain ⟨arrays, harrays⟩ := exists_mapM_ok harray
  exact ⟨_, by rw [table, if_neg h.free_le.not_gt, hvars, harrays]; rfl⟩

end InBounds

end Allocator

end NibblePascal
