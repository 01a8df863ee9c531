import Mathlib.Data.List.Nodup
import NibblePascal.Proofs.Storage.InBounds
import NibblePascal.Proofs.Storage.Workspace

/-!
# Loans of temporaries

Every temporary that was ever made is either in the pool of its width or on loan, and never both
or twice.  `a.Lends vs` says so, where the temporaries on loan are those among `vs`.

* `Allocator.Lends.ledger`: the loans follow the generated code;
* `Lends.mem_outstanding`: what is in no pool is on loan;
* `Lends.count_pool`: with nothing on loan, every temporary is in its pool, once.
-/

namespace NibblePascal

namespace Allocator

variable {a a' : Allocator} {vs us : List Var} {u v : Var} {w : Width} {name block : String}

/-- The temporaries made so far. -/
def temporaries (a : Allocator) : List Var := a.vars.toList.filter (·.temp)

/-- The temporaries that are in no pool. -/
def outstanding (a : Allocator) : List Var := a.temporaries.filter fun v => v ∉ a.pools.all

/-- The temporaries made so far are those in the pools and those among `vs`. -/
structure Lends (a : Allocator) (vs : List Var) : Prop where
  perm : (a.pools.all ++ vs.filter (·.temp)).Perm a.temporaries
  nodup : a.temporaries.Nodup
  width : ∀ w, ∀ v ∈ a.pools.get w, v.width = w
  below : ∀ v ∈ a.vars.toList, v.addr < a.free

namespace Lends

theorem empty : Lends {} [] where
  perm := .refl _
  nodup := .nil
  width := by
    intro w v hv
    cases w <;> cases hv
  below := nofun

theorem locate (h : a.Lends vs) (pos : Pos) : (a.locate pos).Lends vs := { h with }

theorem rearrange (h : a.Lends vs) (hp : vs.Perm us) : a.Lends us :=
  { h with perm := (List.Perm.append_left _ (hp.symm.filter _)).trans h.perm }

/-- A declared scalar is not on loan. -/
theorem declared (h : a.Lends vs) (hv : v.temp = false) : a.Lends (v :: vs) :=
  { h with perm := by rw [List.filter_cons_of_neg (by simp [hv])]; exact h.perm }

theorem temp_of_pooled (h : a.Lends vs) (hv : v ∈ a.pools.all) : v.temp = true :=
  (List.mem_filter.1 (h.perm.mem_iff.1 (List.mem_append_left _ hv))).2

/-- A temporary out of its pool. -/
theorem take_pooled (h : a.Lends vs) {rest : List Var} (hpool : a.pools.get w = v :: rest) :
    ({ a with pools := a.pools.set w rest } : Allocator).Lends (v :: vs) := by
  have hall : a.pools.all.Perm (v :: (a.pools.set w rest).all) := by
    have := Pools.all_set_cons a.pools w v rest
    rwa [← hpool, Pools.set_get] at this
  have htemp := h.temp_of_pooled (hall.mem_iff.2 (.head _))
  have hrest : ∀ v ∈ rest, v.width = w := fun v hv => h.width w v (by rw [hpool]; exact .tail _ hv)
  refine { h with perm := ?_, width := Pools.forall_set h.width hrest }
  rw [List.filter_cons_of_pos htemp]
  exact (List.perm_middle.trans (hall.symm.append_right _)).trans h.perm

/-- A new scalar has cells behind all others. -/
theorem define {isTemp : Bool} (h : a.Lends vs)
    (hd : a.define name w block isTemp = (.ok v, a')) : a'.Lends (v :: vs) ∧ v.temp = isTemp := by
  obtain ⟨-, hv, rfl⟩ := of_define hd
  have haddr : v.addr = a.free := by rw [hv]
  have htemp : v.temp = isTemp := by rw [hv]
  have hpos : 0 < w.cells := by cases w <;> decide
  have hnew : v ∉ a.temporaries := fun hmem =>
    absurd (h.below v (List.mem_of_mem_filter hmem)) (by omega)
  refine ⟨{ h with perm := ?_, nodup := ?_, below := ?_ }, htemp⟩
  · cases isTemp with
    | false => simpa [temporaries, htemp] using h.perm
    | true =>
      have hperm := h.perm.append_right [v]
      simp only [temporaries, Array.toList_push, List.filter_append, List.filter_cons, htemp,
        List.filter_nil, if_true]
      refine List.Perm.trans ?_ hperm
      rw [List.append_assoc]
      exact List.Perm.append_left _ (List.perm_append_singleton ..).symm
  · cases isTemp with
    | false => simpa [temporaries, htemp] using h.nodup
    | true =>
      simp only [temporaries, Array.toList_push, List.filter_append, List.filter_cons, htemp,
        List.filter_nil, if_true]
      exact List.nodup_append.2 ⟨h.nodup, by simp, fun u hu v' hv' => by
        rw [List.mem_singleton.1 hv']
        exact fun heq => hnew (heq ▸ hu)⟩
  · intro u hu
    simp only [Array.toList_push, List.mem_append, List.mem_singleton] at hu
    obtain hu | rfl := hu
    · exact (h.below u hu).trans_le (Nat.le_add_right ..)
    · exact haddr ▸ Nat.lt_add_of_pos_right hpos

/-- A temporary is taken out of its pool or made. -/
theorem take (h : a.Lends vs) (ht : a.temp w = (.ok v, a')) : a'.Lends (v :: vs) ∧ v.temp = true := by
  unfold Allocator.temp at ht
  split at ht
  case h_1 u rest hpool =>
    obtain ⟨rfl, rfl⟩ : u = v ∧ _ = a' := by simpa using ht
    exact ⟨h.take_pooled hpool, h.temp_of_pooled (Pools.mem_all.2 ⟨w, by simp [hpool]⟩)⟩
  case h_2 =>
    have h' : ({ a with temps := a.temps + 1 } : Allocator).Lends vs := { h with }
    exact h'.define ht

theorem release (h : a.Lends (v :: vs)) : (a.release v).Lends vs := by
  unfold Allocator.release
  split
  case isTrue htemp =>
    have hall := Pools.all_set_cons a.pools v.width v (a.pools.get v.width)
    rw [Pools.set_get] at hall
    refine { h with
      perm := ?_
      width := Pools.forall_set h.width (List.forall_mem_cons.2 ⟨rfl, h.width v.width⟩) }
    have hperm := h.perm
    rw [List.filter_cons_of_pos htemp] at hperm
    exact ((hall.append_right _).trans List.perm_middle.symm).trans hperm
  case isFalse htemp =>
    have hperm := h.perm
    rw [List.filter_cons_of_neg (by simpa using htemp)] at hperm
    exact { h with perm := hperm }

theorem defineVar (h : a.Lends vs) (hd : a.defineVar name w block = (.ok v, a')) :
    a'.Lends vs ∧ v.temp = false := by
  obtain ⟨h', hv⟩ := h.define hd
  refine ⟨{ h' with perm := ?_ }, hv⟩
  have hperm := h'.perm
  rwa [List.filter_cons_of_neg (by simp [hv])] at hperm

theorem defineArray (h : a.Lends vs) {len : Nat} {arr : ArrayVar}
    (hd : a.defineArray name w len block = (.ok arr, a')) : a'.Lends vs := by
  obtain ⟨-, -, rfl⟩ := of_defineArray hd
  exact { h with }

/-- What is in no pool is on loan. -/
theorem mem_outstanding (h : a.Lends vs) : v ∈ a.outstanding ↔ v ∈ vs ∧ v.temp = true := by
  have hnodup := h.perm.nodup_iff.2 h.nodup
  have hdisjoint := (List.nodup_append.1 hnodup).2.2
  rw [outstanding, List.mem_filter, ← h.perm.mem_iff, List.mem_append, List.mem_filter]
  simp only [decide_eq_true_eq]
  constructor
  · rintro ⟨hpool | hv, hnot⟩
    exacts [absurd hpool hnot, hv]
  · intro hv
    exact ⟨.inr hv, fun hpool => hdisjoint v hpool v (List.mem_filter.2 hv) rfl⟩

/-- No temporary is on loan twice. -/
theorem nodup_loans (h : a.Lends vs) : (vs.filter (·.temp)).Nodup :=
  (List.nodup_append.1 (h.perm.nodup_iff.2 h.nodup)).2.1

/-- With nothing on loan, every temporary is in the pool of its width, once. -/
theorem count_pool (h : a.Lends []) (hv : v ∈ a.vars.toList) (ht : v.temp = true) (w : Width) :
    (a.pools.get w).count v = if w = v.width then 1 else 0 := by
  have hmem : v ∈ a.temporaries := List.mem_filter.2 ⟨hv, ht⟩
  have hall : a.pools.all.count v = 1 := by
    have hperm := h.perm
    rw [List.filter_nil, List.append_nil] at hperm
    rw [hperm.count_eq]
    exact List.count_eq_one_of_mem h.nodup hmem
  have hother : ∀ w', w' ≠ v.width → (a.pools.get w').count v = 0 := fun w' hw =>
    List.count_eq_zero.2 fun hmem => hw (h.width w' v hmem).symm
  by_cases hw : w = v.width
  · rw [if_pos hw]
    simp only [Pools.all, List.count_append] at hall
    have hn := hother .nibble
    have hb := hother .byte
    have hd := hother .word
    simp only [Pools.get] at hn hb hd
    subst hw
    cases hwidth : v.width <;> rw [hwidth] at hn hb hd <;> simp [Pools.get] at hn hb hd ⊢ <;> omega
  · rw [if_neg hw]
    exact hother w hw

/-- The loans follow the generated code. -/
theorem ledger {sc : Scope} (hsc : ∀ {x v}, sc.find? x = some (.scalar v) → v.temp = false) :
    Ledger sc fun s vs => s.memory.Lends vs where
  skip := fun _ h => h
  locate := fun pos h => h.locate pos
  perm := fun hp h => h.rearrange hp
  take := fun ⟨_, ht, hs⟩ h => hs ▸ (h.take ht).1
  release := fun h => h.release
  declared := fun hx h => h.declared (hsc hx)

end Lends

end Allocator

end NibblePascal
