import Mathlib.Data.List.Pairwise
import NibblePascal.Proofs.Generation.Invariant
import NibblePascal.Proofs.Simulation.Statement

/-!
# Where the names of a program lie

Every declaration takes cells that no other name has.  Scalars and the selectors of procedures
lie outside the cells for temporaries, and arrays get the slots of the higher banks in order.

* `a.Laid`: the allocator has laid out its variables so;
* `Outline.Tidy`: the names in scope are variables of an allocator that has; blocks keep this,
  `Outline.tidy_invariant`, and `Outline.Tidy.ready` is what the code of a statement needs to know.
-/

namespace NibblePascal

/-! ### The allocator -/

namespace Allocator

variable {a a' : Allocator} {v : Var} {arr : ArrayVar} {name block : String} {w : Width}
  {len addr : Nat}

/-- The scalars that were declared, in the order of their addresses. -/
def declared (a : Allocator) : List Var := a.vars.toList.filter fun v => !v.temp

/-- The first cell of the next slot. -/
def frontier (a : Allocator) : Nat := a.bank * 4096 + a.slot * slotSize

/-- The variables of the allocator lie apart from one another, the declared ones outside the
cells for temporaries and the arrays below the next slot. -/
structure Laid (a : Allocator) : Prop where
  sound : a.Sound
  outside : ∀ v ∈ a.declared, v.Outside a.Spare
  apart : a.declared.Pairwise Var.Apart
  bank_pos : 1 ≤ a.bank
  slot_lt : a.slot < slotsPerBank
  array : ∀ r ∈ a.arrays.toList, r.Placed ∧ r.base < a.frontier
  bases : a.arrays.toList.Pairwise fun r r' => r.base ≠ r'.base

theorem laid_empty : Laid {} where
  sound := sound_empty
  outside := nofun
  apart := .nil
  bank_pos := le_rfl
  slot_lt := by decide
  array := nofun
  bases := .nil

theorem Laid.locate (h : a.Laid) (pos : Pos) : (a.locate pos).Laid :=
  ⟨h.sound.locate pos, h.outside, h.apart, h.bank_pos, h.slot_lt, h.array, h.bases⟩

/-- A declared scalar gets cells that were spare. -/
theorem Sound.defineVar (h : a.Sound) (hd : a.defineVar name w block = (.ok v, a')) :
    a'.Sound ∧ v.Outside a'.Spare ∧ (∀ addr, a'.Spare addr → a.Spare addr) ∧
      ∀ addr, v.Covers addr → a.Spare addr := by
  obtain ⟨hspace, rfl, rfl⟩ := of_define hd
  refine ⟨⟨hspace, h.width, h.temp, fun u hu => (h.below u hu).trans (Nat.le_add_right ..),
    h.apart⟩, ⟨hspace, rfl, ?_⟩, ?_, fun addr hc => .inl ⟨hc.1, hc.2.trans_le hspace⟩⟩
  · rintro addr ⟨hle, hlt⟩ (⟨hfree, -⟩ | ⟨u, hu, hcu⟩)
    · exact absurd (hlt.trans_le hfree) (lt_irrefl _)
    · exact absurd (hcu.2.trans_le ((h.below u hu).trans hle)) (lt_irrefl _)
  · rintro addr (⟨hle, hlt⟩ | hpooled)
    · exact .inl ⟨(Nat.le_add_right ..).trans hle, hlt⟩
    · exact .inr hpooled

/-- What a declared scalar is, and what it leaves alone. -/
theorem of_defineVar (hd : a.defineVar name w block = (.ok v, a')) :
    v.name = name ∧ v.width = w ∧ a'.declared = a.declared ++ [v] ∧ a'.arrays = a.arrays ∧
      a'.bank = a.bank ∧ a'.slot = a.slot := by
  obtain ⟨-, rfl, rfl⟩ := of_define hd
  exact ⟨rfl, rfl, by simp [declared], rfl, rfl, rfl⟩

/-- A new scalar lies apart from the declared ones. -/
theorem Laid.apart_new (h : a.Laid) (hd : a.defineVar name w block = (.ok v, a')) {u : Var}
    (hu : u ∈ a.declared) : u.Apart v := by
  obtain ⟨-, -, -, hspare⟩ := h.sound.defineVar hd
  exact Var.apart_iff.2 fun addr hcu hcv => (h.outside u hu).not_room addr hcu (hspare addr hcv)

theorem Laid.defineVar (h : a.Laid) (hd : a.defineVar name w block = (.ok v, a')) :
    a'.Laid := by
  obtain ⟨hsound, hv, hsub, -⟩ := h.sound.defineVar hd
  obtain ⟨-, -, hdecl, harr, hbank, hslot⟩ := of_defineVar hd
  have hfront : a'.frontier = a.frontier := by rw [frontier, frontier, hbank, hslot]
  refine ⟨hsound, ?_, ?_, hbank ▸ h.bank_pos, hslot ▸ h.slot_lt, ?_, harr ▸ h.bases⟩
  · intro u hu
    rw [hdecl, List.mem_append, List.mem_singleton] at hu
    obtain hu | rfl := hu
    exacts [(h.outside u hu).mono hsub, hv]
  · rw [hdecl]
    refine List.pairwise_append.2 ⟨h.apart, List.pairwise_singleton .., fun u hu u' hu' => ?_⟩
    rw [List.mem_singleton.1 hu']
    exact h.apart_new hd hu
  · rw [harr, hfront]
    exact h.array

/-- The slot behind an array is a slot again, in this bank or the next one. -/
theorem Laid.next_slot (h : a.Laid) (hd : a.defineArray name w len block = (.ok arr, a')) :
    1 ≤ a'.bank ∧ a'.slot < slotsPerBank ∧ a.frontier < a'.frontier := by
  have hpos := h.bank_pos
  have hslot := h.slot_lt
  obtain ⟨-, -, rfl⟩ := of_defineArray hd
  by_cases hfull : a.slot + 1 = slotsPerBank <;> simp [frontier, hfull] <;>
    simp only [slotsPerBank, slotSize] at * <;> omega

theorem Laid.defineArray (h : a.Laid) (hd : a.defineArray name w len block = (.ok arr, a')) :
    a'.Laid := by
  obtain ⟨hbank, hslot, hfront⟩ := h.next_slot hd
  obtain ⟨hlast, harr, rfl⟩ := of_defineArray hd
  have hplaced : arr.Placed := by
    rw [harr]
    exact ⟨h.bank_pos, hlast, a.slot, h.slot_lt, rfl⟩
  have hbase : arr.base = a.frontier := by
    rw [harr]
    rfl
  refine ⟨⟨h.sound.1, h.sound.2, h.sound.3, h.sound.4, h.sound.5⟩, h.outside, h.apart, hbank,
    hslot, ?_, ?_⟩
  · intro r hr
    rw [Array.toList_push, List.mem_append, List.mem_singleton] at hr
    obtain hr | rfl := hr
    · exact ⟨(h.array r hr).1, (h.array r hr).2.trans hfront⟩
    · exact ⟨hplaced, hbase.trans_lt hfront⟩
  · rw [Array.toList_push]
    refine List.pairwise_append.2 ⟨h.bases, List.pairwise_singleton .., fun r hr r' hr' => ?_⟩
    rw [List.mem_singleton.1 hr', hbase]
    exact (h.array r hr).2.ne

/-! ### Temporaries declare nothing -/

/-- Nothing is declared between the two. -/
structure Keeps (a a' : Allocator) : Prop where
  declared : a'.declared = a.declared
  arrays : a'.arrays = a.arrays
  bank : a'.bank = a.bank
  slot : a'.slot = a.slot

theorem Keeps.refl (a : Allocator) : a.Keeps a := ⟨rfl, rfl, rfl, rfl⟩

theorem Keeps.trans {a'' : Allocator} (h : a.Keeps a') (h' : a'.Keeps a'') : a.Keeps a'' :=
  ⟨h'.1.trans h.1, h'.2.trans h.2, h'.3.trans h.3, h'.4.trans h.4⟩

theorem Keeps.release (h : a.Keeps a') (v : Var) : a.Keeps (a'.release v) := by
  refine h.trans ?_
  unfold Allocator.release
  split
  exacts [⟨rfl, rfl, rfl, rfl⟩, .refl _]

theorem Keeps.temp (h : a.Keeps a') {a'' : Allocator} (ht : a'.temp w = (.ok v, a'')) :
    a.Keeps a'' := by
  refine h.trans ?_
  unfold Allocator.temp at ht
  split at ht
  · obtain ⟨-, rfl⟩ : _ = v ∧ _ = a'' := by simpa using ht
    exact ⟨rfl, rfl, rfl, rfl⟩
  · obtain ⟨-, rfl, rfl⟩ := of_define ht
    exact ⟨by simp [Allocator.declared], rfl, rfl, rfl⟩

theorem Keeps.ledger (sc : Scope) (a : Allocator) : Ledger sc fun s _ => a.Keeps s.memory where
  skip := fun _ h => h
  locate := fun _ h => { h with }
  perm := fun _ h => h
  take := fun ⟨_, ht, hs⟩ h => hs ▸ h.temp ht
  release := fun h => h.release _
  declared := fun _ h => h

theorem Laid.keeps (h : a.Laid) (hk : a.Keeps a') (hsound : a'.Sound)
    (hspare : ∀ addr, a'.Spare addr ↔ a.Spare addr) : a'.Laid where
  sound := hsound
  outside := fun v hv => (h.outside v (hk.declared ▸ hv)).mono fun addr => (hspare addr).1
  apart := hk.declared ▸ h.apart
  bank_pos := hk.bank ▸ h.bank_pos
  slot_lt := hk.slot ▸ h.slot_lt
  array := by
    rw [hk.arrays, frontier, hk.bank, hk.slot]
    exact h.array
  bases := hk.arrays ▸ h.bases

end Allocator

/-! ### Names in scope -/

namespace Outline

/-- The names in scope are variables of an allocator that has laid them out, and no temporary is
on loan. -/
structure Tidy (o : Outline) : Prop where
  laid : o.stock.memory.Laid
  housed : o.Housed
  lends : o.Lends []

variable {o : Outline} {x y : String} {u v : Var} {a b : ArrayVar}

theorem tidy_start : start.Tidy := ⟨Allocator.laid_empty, housed_start, lends_start⟩

theorem Tidy.mem_declared (h : o.Tidy) (hx : o.scope.find? x = some (.scalar v)) :
    v ∈ o.stock.memory.declared := by
  obtain ⟨hmem, -⟩ := Scope.mem_of_find? hx
  exact List.mem_filter.2 ⟨h.housed.scalar v hmem, by simp [h.lends.scope v hmem]⟩

theorem Tidy.mem_arrays (h : o.Tidy) (hx : o.scope.find? x = some (.array a)) :
    a ∈ o.stock.memory.arrays.toList := h.housed.array a (Scope.mem_of_find? hx).1

/-- No temporary is on loan, so all of them are in the pools. -/
theorem Tidy.pooled (h : o.Tidy) (hv : v ∈ o.stock.memory.vars.toList) (ht : v.temp = true) :
    v ∈ o.stock.memory.pools.all := by
  have hmem := h.lends.memory.perm.mem_iff.2 (List.mem_filter.2 ⟨hv, ht⟩)
  simpa using hmem

/-- Different variables have no cell in common. -/
theorem Tidy.apart (h : o.Tidy) (hu : u ∈ o.stock.memory.vars.toList)
    (hv : v ∈ o.stock.memory.vars.toList) (hne : u ≠ v) : u.Apart v := by
  have : Std.Symm Var.Apart := ⟨fun _ _ => .symm⟩
  have hdeclared : ∀ {w : Var}, w ∈ o.stock.memory.vars.toList → w.temp = false →
      w ∈ o.stock.memory.declared := fun hw ht => List.mem_filter.2 ⟨hw, by simp [ht]⟩
  -- The cells of a temporary are spare, and those of a declared scalar are not.
  have hmixed : ∀ {u v : Var}, u ∈ o.stock.memory.vars.toList → v ∈ o.stock.memory.vars.toList →
      u.temp = true → v.temp = false → u.Apart v := fun hu hv htu htv =>
    Var.apart_iff.2 fun addr hc hc' =>
      (h.laid.outside _ (hdeclared hv htv)).not_room addr hc' (.inr ⟨_, h.pooled hu htu, hc⟩)
  cases htu : u.temp with
  | false =>
    cases htv : v.temp with
    | false => exact h.laid.apart.forall (hdeclared hu htu) (hdeclared hv htv) hne
    | true => exact (hmixed hv hu htv htu).symm
  | true =>
    cases htv : v.temp with
    | false => exact hmixed hu hv htu htv
    | true => exact h.laid.sound.apart.forall (h.pooled hu htu) (h.pooled hv htv) hne

/-- Variables of different names are different variables, so they lie apart. -/
theorem Tidy.ready (h : o.Tidy) : o.scope.Ready o.stock.memory.Spare where
  room_lt := by
    rintro addr (⟨-, hlt⟩ | ⟨v, hv, hc⟩)
    · exact hlt
    · exact hc.2.trans_le ((h.laid.sound.below v hv).trans h.laid.sound.free_le)
  scalar := fun hx => h.laid.outside _ (h.mem_declared hx)
  array := fun hx => h.housed.bounds.array _ (h.mem_arrays hx)
  apart := by
    intro x y u v hx hy hne
    have huv : u ≠ v := by
      rintro rfl
      exact hne ((Scope.mem_of_find? hx).2.symm.trans (Scope.mem_of_find? hy).2)
    have : Std.Symm Var.Apart := ⟨fun _ _ => .symm⟩
    exact h.laid.apart.forall (h.mem_declared hx) (h.mem_declared hy) huv
  slots := by
    intro x y a b hx hy hne
    have hab : a ≠ b := by
      rintro rfl
      exact hne ((Scope.mem_of_find? hx).2.symm.trans (Scope.mem_of_find? hy).2)
    have : Std.Symm fun r r' : ArrayVar => r.base ≠ r'.base := ⟨fun _ _ => .symm⟩
    exact h.laid.bases.forall (h.mem_arrays hx) (h.mem_arrays hy) hab

/-- A statement takes back all its temporaries. -/
theorem Tidy.statement (h : o.Tidy) {st : Stmt} {code : List Piece} {s' : Stock}
    (hst : Stmt.Coded o.scope o.stock st code s') : (o.restock s').Tidy := by
  refine ⟨?_, housed_invariant.statement h.housed hst, lends_invariant.statement h.lends hst⟩
  have hw := hst.books h.ready.ledger (Workspace.of_sound h.laid.sound)
  refine h.laid.keeps (hst.upholds (Allocator.Keeps.ledger _ _) (.refl _)) hw.sound fun addr => ?_
  simpa using (hw.room_iff addr).symm

theorem tidy_invariant : Invariant Tidy where
  statement := fun h hst => h.statement hst
  scalar := fun h hd hs => ⟨(h.laid.locate _).defineVar hd, housed_invariant.scalar h.housed hd hs,
    lends_invariant.scalar h.lends hd hs⟩
  array := fun h hd hlen hs => ⟨(h.laid.locate _).defineArray hd,
    housed_invariant.array h.housed hd hlen hs, lends_invariant.array h.lends hd hlen hs⟩
  openBody := fun h hn hs hd => ⟨(h.laid.locate _).defineVar hd,
    housed_invariant.openBody h.housed hn hs hd, lends_invariant.openBody h.lends hn hs hd⟩
  leave := fun h => ⟨h.laid, housed_invariant.leave h.housed, lends_invariant.leave h.lends⟩

end Outline

end NibblePascal
