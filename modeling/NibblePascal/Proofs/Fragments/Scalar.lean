import NibblePascal.Proofs.Machine.Straight
import NibblePascal.Storage.Allocator
import Mathlib.Tactic.Linarith

/-!
# Fragments on scalars

What the straight fragments of `Code.Scalar` do to the memory.  A scalar `v` is read and set
as a whole, by `Memory.get` and `Memory.set`, and every fragment turns the memory `m` into
`m.set dst x` for the number `x` that it stands for.

The fragments walk over the cells of their operands and the carry hands on what is left over.
`Filling s t addr i` is what all of them keep on the way: `t` is `s` but for the lowest `i`
cells from `addr` on.
-/

namespace NibblePascal

/-! ### Scalars in memory -/

namespace Var

/-- The scalar lies within the cells for scalars. -/
def Placed (v : Var) : Prop := v.addr + v.cells ≤ scalarSpace

/-- The scalar takes the cell. -/
def Covers (v : Var) (addr : Nat) : Prop := v.addr ≤ addr ∧ addr < v.addr + v.cells

/-- The scalars have no cell in common. -/
def Apart (u v : Var) : Prop := u.addr + u.cells ≤ v.addr ∨ v.addr + v.cells ≤ u.addr

/-- The scalars have the same cells or none in common. -/
def Clear (u v : Var) : Prop := u.addr = v.addr ∨ u.Apart v

theorem Apart.symm {u v : Var} (h : u.Apart v) : v.Apart u := Or.symm h

theorem Apart.clear {u v : Var} (h : u.Apart v) : u.Clear v := Or.inr h

theorem Clear.refl (v : Var) : v.Clear v := Or.inl rfl

theorem cells_pos (v : Var) : 0 < v.cells := by
  unfold cells Width.cells
  split <;> decide

theorem cells_le (v : Var) : v.cells ≤ 4 := by
  unfold cells Width.cells
  split <;> decide

theorem cell_lt {v : Var} (h : v.Placed) {i : Nat} (hi : i < v.cells) : v.cell i < 4096 := by
  unfold Placed scalarSpace at h
  unfold cell
  omega

theorem fits {v : Var} (h : v.Placed) : v.addr + v.cells ≤ memorySize :=
  le_trans h (by decide)

end Var

namespace Memory

variable {m : Memory} {v u : Var} {x : Nat}

/-- The number that a scalar holds. -/
def get (m : Memory) (v : Var) : Nat := m.number v.addr v.cells

/-- The memory with another number in a scalar. -/
def set (m : Memory) (v : Var) (x : Nat) : Memory := m.writeNumber v.addr x v.cells

theorem get_lt (hm : m.Nibbles) (v : Var) : m.get v < 16 ^ v.cells :=
  hm.number_lt ..

theorem nibbles_set (hm : m.Nibbles) : (m.set v x).Nibbles := nibbles_writeNumber hm

theorem get_set_same (hv : v.Placed) : (m.set v x).get v = x % 16 ^ v.cells :=
  number_writeNumber_same (Var.fits hv)

theorem get_set_of_apart (h : u.Apart v) : (m.set v x).get u = m.get u :=
  number_writeNumber_of_apart (Or.symm h)

theorem read_set_of_not {addr : Nat} (h : ¬ v.Covers addr) :
    (m.set v x).read addr = m.read addr := read_writeNumber_of_not h

theorem set_mod (hm : m.Nibbles) (hv : v.Placed) : m.set v (x % 16 ^ v.cells) = m.set v x :=
  writeNumber_mod hm (Var.fits hv)

theorem set_set (hm : m.Nibbles) (hv : v.Placed) (y : Nat) : (m.set v x).set v y = m.set v y :=
  eq_writeNumber (Var.fits hv) (nibbles_set (nibbles_set hm))
    (fun _ h => (read_set_of_not h).trans (read_set_of_not h)) (get_set_same hv)

theorem get_congr {m' : Memory} (h : ∀ addr, v.Covers addr → m'.read addr = m.read addr) :
    m'.get v = m.get v :=
  number_congr fun i hi => h (v.addr + i) ⟨by omega, by omega⟩

/-- The memory `m'` is `m` but for the cells of some scalars. -/
def SameOff (vs : List Var) (m m' : Memory) : Prop :=
  ∀ addr, (∀ v ∈ vs, ¬ v.Covers addr) → m'.read addr = m.read addr

variable {m' m'' : Memory} {vs : List Var}

theorem SameOff.refl (vs : List Var) (m : Memory) : m.SameOff vs m := fun _ _ => rfl

theorem SameOff.trans (h : m.SameOff vs m') (h' : m'.SameOff vs m'') : m.SameOff vs m'' :=
  fun addr haddr => (h' addr haddr).trans (h addr haddr)

theorem sameOff_set (hv : v ∈ vs) (m : Memory) (x : Nat) : m.SameOff vs (m.set v x) :=
  fun _ haddr => read_set_of_not (haddr v hv)

theorem sameOff_write {addr : Nat} (hv : v ∈ vs) (h : v.Covers addr) (m : Memory) (x : Nat) :
    m.SameOff vs (m.write addr x) := by
  intro other hother
  refine read_write_of_ne _ _ fun e => ?_
  subst e
  exact hother v hv h

theorem SameOff.mono {us : List Var} (h : m.SameOff vs m') (hsub : vs ⊆ us) : m.SameOff us m' :=
  fun addr haddr => h addr fun v hv => haddr v (hsub hv)

theorem SameOff.get_eq (h : m.SameOff vs m') (hu : ∀ v ∈ vs, u.Apart v) : m'.get u = m.get u := by
  refine get_congr fun addr haddr => h addr fun v hv hcov => ?_
  have := hu v hv
  unfold Var.Covers at *
  unfold Var.Apart at *
  omega

end Memory

/-! ### Filling the cells of a scalar -/

/-- The state `u` is `t` but for the registers, the flags and the digit `x` in one cell. -/
structure Stores (t u : State) (addr x : Nat) : Prop where
  bank : u.bank = t.bank
  out : u.out = t.out
  inp : u.inp = t.inp
  mem : u.mem = t.mem.write addr x

/-- The state `t` is `s` but for the registers, the flags and the lowest `i` cells from `addr`
on. -/
structure Filling (s t : State) (addr i : Nat) : Prop where
  bank : t.bank = 0
  out : t.out = s.out
  inp : t.inp = s.inp
  nibbles : t.mem.Nibbles
  same : ∀ other, ¬ (addr ≤ other ∧ other < addr + i) → t.mem.read other = s.mem.read other

namespace Filling

variable {s t u : State} {addr i x : Nat}

theorem start (hb : s.bank = 0) (hm : s.mem.Nibbles) (addr : Nat) : Filling s s addr 0 :=
  ⟨hb, rfl, rfl, hm, fun _ _ => rfl⟩

/-- The next cell is filled. -/
theorem next (h : Filling s t addr i) (hu : Stores t u (addr + i) x) (hx : x < 16) :
    Filling s u addr (i + 1) where
  bank := hu.bank.trans h.bank
  out := hu.out.trans h.out
  inp := hu.inp.trans h.inp
  nibbles := by
    rw [hu.mem]
    exact Memory.nibbles_write h.nibbles hx
  same := by
    intro other hother
    rw [hu.mem, Memory.read_write_of_ne _ _ (by omega)]
    exact h.same other (by omega)

/-- An operand that is the destination itself or apart from it is not yet overwritten. -/
theorem read_operand {v dst : Var} (h : Filling s t dst.addr i) (hc : v.Clear dst)
    (hv : i < v.cells) (hd : i < dst.cells) :
    t.mem.read (v.addr + i) = s.mem.read (v.addr + i) := by
  refine h.same _ ?_
  rcases hc with h | h | h <;> omega

/-- The whole scalar is filled. -/
theorem mem_eq {v : Var} (h : Filling s t v.addr v.cells) (hv : v.Placed)
    (hx : t.mem.number v.addr v.cells = x % 16 ^ v.cells) : t.mem = s.mem.set v x :=
  Memory.eq_writeNumber (Var.fits hv) h.nibbles h.same hx

end Filling

/-- The number in the cells that are filled grows by a digit. -/
theorem Stores.number_eq {t u : State} {addr i x : Nat} (h : Stores t u (addr + i) x)
    (hfit : addr + i < 4096) :
    u.mem.number addr (i + 1) = t.mem.number addr i + x * 16 ^ i := by
  rw [h.mem, Memory.number_write_next (lt_trans hfit (by decide))]

/-- Code that fills the cells of a scalar one by one, with an invariant on the number in the
cells that are filled. -/
theorem State.performAll_fill {s : State} {dst : Var} {f : Nat → List Line}
    {P : Nat → Nat → State → Prop} {count : Nat} (hb : s.bank = 0) (hm : s.mem.Nibbles)
    (hdst : dst.Placed) (hcount : count ≤ dst.cells) (h0 : P 0 0 s)
    (hstep : ∀ i < count, ∀ t x, Filling s t dst.addr i → P i x t →
      ∃ u d, t.performAll (f i) = some u ∧ Stores t u (dst.addr + i) d ∧ d < 16 ∧
        P (i + 1) (x + d * 16 ^ i) u) :
    ∃ t, s.performAll ((List.range count).flatMap f) = some t ∧ Filling s t dst.addr count ∧
      P count (t.mem.number dst.addr count) t := by
  refine performAll_range (P := fun i t => Filling s t dst.addr i ∧
    P i (t.mem.number dst.addr i) t) ⟨Filling.start hb hm _, h0⟩ ?_
  rintro i hi t ⟨hfill, hP⟩
  obtain ⟨u, d, htu, hu, hd, hP'⟩ := hstep i hi t _ hfill hP
  refine ⟨u, htu, hfill.next hu hd, ?_⟩
  rw [hu.number_eq (Var.cell_lt hdst (hi.trans_le hcount))]
  exact hP'

/-! ### Copies and constants -/

namespace Code

variable {m : Memory} {src dst v : Var}

theorem performAll_move (t : State) {a b : Nat} (hb : t.bank = 0) (ha : a < 4096)
    (hd : b < 4096) :
    ∃ u, t.performAll [load a, store b] = some u ∧ Stores t u b (t.mem.read a) := by
  refine ⟨{ t with acc := t.mem.read a, mem := t.mem.write b (t.mem.read a) }, ?_,
    ⟨rfl, rfl, rfl, rfl⟩⟩
  simp [hb, ha, hd]

/-- The lowest cells of `src` are copied. -/
theorem performAll_copyCells {s : State} (hb : s.bank = 0) (hm : s.mem.Nibbles)
    (hsrc : src.Placed) (hdst : dst.Placed) {count : Nat} (hs : count ≤ src.cells)
    (hd : count ≤ dst.cells) (hc : src.Clear dst) :
    ∃ t, s.performAll (copyCells src dst none count) = some t ∧
      Filling s t dst.addr count ∧
      t.mem.number dst.addr count = s.mem.number src.addr count := by
  refine State.performAll_fill (P := fun i x _ => x = s.mem.number src.addr i) hb hm hdst hd
    rfl ?_
  intro i hi t x hfill hx
  have hread := hfill.read_operand hc (hi.trans_le hs) (hi.trans_le hd)
  obtain ⟨u, htu, hu⟩ := performAll_move t hfill.bank (Var.cell_lt hsrc (hi.trans_le hs))
    (Var.cell_lt hdst (hi.trans_le hd))
  refine ⟨u, _, htu, hu, hfill.nibbles _, ?_⟩
  rw [hx, Var.cell, hread, Memory.number_succ]

/-- `dst := src`. -/
theorem transforms_assign (hm : m.Nibbles) (hsrc : src.Placed) (hdst : dst.Placed)
    (hcells : src.cells = dst.cells) (hc : src.Clear dst) :
    Transforms (assign src dst none) m (m.set dst (m.get src)) := by
  intro s hb hs
  subst hs
  obtain ⟨t, hst, hfill, hnum⟩ :=
    performAll_copyCells hb hm hsrc hdst le_rfl hcells.le hc
  rw [hcells] at hfill hnum
  have hlt : s.mem.get src < 16 ^ dst.cells := hcells ▸ s.mem.get_lt hm src
  refine ⟨t, hst, hfill.bank, hfill.mem_eq hdst ?_, hfill.out, hfill.inp⟩
  rw [hnum, Nat.mod_eq_of_lt hlt, Memory.get, hcells]

/-- The upper cells of a scalar are cleared when the lower ones are filled. -/
theorem performAll_clearFrom {s t : State} (hv : v.Placed) {start : Nat}
    (hstart : start ≤ v.cells) (h : Filling s t v.addr start) :
    ∃ u, t.performAll (clearFrom v start) = some u ∧ Filling s u v.addr v.cells ∧
      u.mem.number v.addr v.cells = t.mem.number v.addr start := by
  have hlist : (v.cellList.drop start).map store =
      (List.range (v.cells - start)).flatMap fun i => [store (v.cell (start + i))] := by
    rw [← List.map_eq_flatMap, Var.cellList, ← List.map_drop, List.map_map, List.range_eq_range',
      List.drop_range', List.range'_eq_map_range, List.map_map]
    simp
  obtain ⟨u, htu, hfill, hnum, -⟩ := State.performAll_range
    (s := { t with acc := 0 }) (f := fun i => [store (v.cell (start + i))])
    (n := v.cells - start)
    (P := fun i u => Filling s u v.addr (start + i) ∧
      u.mem.number v.addr (start + i) = t.mem.number v.addr start ∧ u.acc = 0)
    ⟨⟨h.bank, h.out, h.inp, h.nibbles, h.same⟩, rfl, rfl⟩ (by
      rintro i hi u ⟨hfill, hnum, hacc⟩
      have hlt : v.cell (start + i) < 4096 := Var.cell_lt hv (by omega)
      have hstores : Stores u { u with mem := u.mem.write (v.cell (start + i)) 0 }
          (v.addr + (start + i)) 0 := ⟨rfl, rfl, rfl, rfl⟩
      refine ⟨{ u with mem := u.mem.write (v.cell (start + i)) 0 }, ?_,
        hfill.next hstores (by decide), ?_, hacc⟩
      · simp [hfill.bank, hlt, hacc]
      · rw [← Nat.add_assoc, Nat.add_assoc, ← hnum]
        have := hstores.number_eq hlt
        rw [Nat.zero_mul, Nat.add_zero] at this
        exact this)
  rw [Nat.add_sub_cancel' hstart] at hfill hnum
  refine ⟨u, ?_, hfill, hnum⟩
  rw [clearFrom, State.performAll_cons, State.perform_loadImm, hlist]
  exact htu

/-- `v := 0`. -/
theorem transforms_clear (hm : m.Nibbles) (hv : v.Placed) :
    Transforms (clear v) m (m.set v 0) := by
  intro s hb hs
  subst hs
  obtain ⟨t, hst, hfill, hnum⟩ :=
    performAll_clearFrom hv (Nat.zero_le _) (Filling.start hb hm v.addr)
  refine ⟨t, hst, hfill.bank, hfill.mem_eq hv ?_, hfill.out, hfill.inp⟩
  rw [hnum, Memory.number_zero, Nat.zero_mod]

/-- `dst := value`. -/
theorem transforms_constant (hm : m.Nibbles) (hdst : dst.Placed) (value : Nat) :
    Transforms (constant value dst) m (m.set dst value) := by
  intro s hb hs
  subst hs
  obtain ⟨t, hst, hfill, hnum⟩ := State.performAll_fill (s := s)
    (f := fun i => [loadImm (value / 16 ^ i), store (dst.cell i)])
    (P := fun i x _ => x = value % 16 ^ i) hb hm hdst le_rfl (by simp [Nat.mod_one]) (by
      intro i hi t x hfill hx
      have hlt := Var.cell_lt hdst hi
      refine ⟨{ t with acc := value / 16 ^ i % 16,
                       mem := t.mem.write (dst.cell i) (value / 16 ^ i % 16) },
        value / 16 ^ i % 16, ?_, ⟨rfl, rfl, rfl, rfl⟩, Nat.mod_lt _ (by decide), ?_⟩
      · simp [hfill.bank, hlt]
      · rw [hx, Nat.mod_pow_succ, Nat.mul_comm (16 ^ i)])
  exact ⟨t, hst, hfill.bank, hfill.mem_eq hdst hnum, hfill.out, hfill.inp⟩

/-- `dst := src` between different widths. -/
theorem transforms_resize (hm : m.Nibbles) (hsrc : src.Placed) (hdst : dst.Placed)
    (hc : src.Clear dst) : Transforms (resize src dst) m (m.set dst (m.get src)) := by
  intro s hb hs
  subst hs
  obtain ⟨t, hst, hfill, hnum⟩ :=
    performAll_copyCells hb hm hsrc hdst (Nat.min_le_left _ dst.cells)
      (Nat.min_le_right src.cells _) hc
  by_cases hlt : src.cells < dst.cells
  · rw [Nat.min_eq_left hlt.le] at hst hfill hnum
    obtain ⟨u, htu, hfill', hnum'⟩ := performAll_clearFrom hdst hlt.le hfill
    refine ⟨u, ?_, hfill'.bank, hfill'.mem_eq hdst ?_, hfill'.out, hfill'.inp⟩
    · simp [resize, hlt, Nat.min_eq_left hlt.le, hst, htu]
    · have hbound : s.mem.get src < 16 ^ dst.cells := lt_of_lt_of_le (s.mem.get_lt hm src)
        (Nat.pow_le_pow_right (by decide) hlt.le)
      rw [hnum', hnum, Nat.mod_eq_of_lt hbound, Memory.get]
  · rw [Nat.min_eq_right (by omega)] at hst hfill hnum
    refine ⟨t, ?_, hfill.bank, hfill.mem_eq hdst ?_, hfill.out, hfill.inp⟩
    · simp [resize, hlt, Nat.min_eq_right (Nat.le_of_not_lt hlt), hst]
    · rw [hnum, Memory.get, Memory.number_mod hm (by omega)]

/-- `dst := ` the cells of `src` from number `start` on. -/
theorem transforms_extract (hm : m.Nibbles) (hsrc : src.Placed) (hdst : dst.Placed)
    {start : Nat} (hstart : start + dst.cells ≤ src.cells) (hc : src.Apart dst) :
    Transforms (extract src start dst) m
      (m.set dst (m.number (src.addr + start) dst.cells)) := by
  intro s hb hs
  subst hs
  obtain ⟨t, hst, hfill, hnum⟩ := State.performAll_fill (s := s)
    (f := fun i => [load (src.cell (start + i)), store (dst.cell i)])
    (P := fun i x _ => x = s.mem.number (src.addr + start) i) hb hm hdst le_rfl rfl (by
      intro i hi t x hfill hx
      have hread : t.mem.read (src.cell (start + i)) = s.mem.read (src.cell (start + i)) := by
        refine hfill.same _ ?_
        unfold Var.cell
        rcases hc with h | h <;> omega
      obtain ⟨u, htu, hu⟩ := performAll_move t hfill.bank
        (Var.cell_lt hsrc (by omega : start + i < src.cells)) (Var.cell_lt hdst hi)
      refine ⟨u, _, htu, hu, hfill.nibbles _, ?_⟩
      rw [hx, hread, Memory.number_succ, Var.cell, Nat.add_assoc])
  refine ⟨t, hst, hfill.bank, hfill.mem_eq hdst ?_, hfill.out, hfill.inp⟩
  rw [hnum, Nat.mod_eq_of_lt (hm.number_lt ..)]

end Code

end NibblePascal
