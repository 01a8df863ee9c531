import NibblePascal.Code.Element
import NibblePascal.Proofs.Fragments.Arithmetic

/-!
# Fragments on arrays

An array is a slot of 256 cells in one of the banks above 0, far from the scalars.  An element
is found by its offset in the slot, which is computed in a byte and wraps there.

* `transforms_readElement` and `transforms_writeElement` move an element from and to a scalar;
* `performAll_fillArray` and `performAll_copyArray` run over the cells of a slot from its first
  one on; they select the banks themselves and may begin with any.
-/

namespace NibblePascal

/-! ### Slots -/

namespace ArrayVar

variable {a : ArrayVar}

/-- The array has a slot of its own in a bank above 0. -/
structure Placed (a : ArrayVar) : Prop where
  bank_pos : 1 ≤ a.bank
  bank_le : a.bank ≤ lastBank
  slot : ∃ k < slotsPerBank, a.addr = k * slotSize

/-- The first cell of the slot. -/
def base (a : ArrayVar) : Nat := a.bank * 4096 + a.addr

/-- The offset of an element in the slot. -/
def offset (a : ArrayVar) (index : Nat) : Nat := index * a.width.cells % slotSize

theorem base_ge (h : a.Placed) : 4096 ≤ a.base := by
  have := h.bank_pos
  unfold base
  omega

theorem cell_lt (h : a.Placed) {k : Nat} (hk : k < slotSize) : a.base + k < memorySize := by
  obtain ⟨slot, hslot, haddr⟩ := h.slot
  have := h.bank_le
  unfold base
  unfold lastBank slotsPerBank slotSize memorySize at *
  omega

/-- An element does not go over the end of its slot. -/
theorem slot_le (h : a.Placed) : a.base + slotSize ≤ memorySize := by
  have hlt := cell_lt h (by decide : slotSize - 1 < slotSize)
  simp only [slotSize] at *
  omega

theorem offset_add_lt (index : Nat) {k : Nat} (hk : k < a.width.cells) :
    a.offset index + k < slotSize := by
  unfold offset slotSize
  cases h : a.width <;> rw [h] at hk <;> simp only [Width.cells] at * <;> omega

theorem offset_mod (index : Nat) : a.offset (index % slotSize) = a.offset index := by
  simp [offset, Nat.mod_mul_mod]

end ArrayVar

/-- The cells of an array are no cells of scalars. -/
theorem Memory.SameOff.read_array {m m' : Memory} {vs : List Var} (h : m.SameOff vs m')
    {a : ArrayVar} (ha : a.Placed) (hvs : ∀ v ∈ vs, v.Placed) {k : Nat} :
    m'.read (a.base + k) = m.read (a.base + k) := by
  refine h _ fun v hv hcov => ?_
  have hbase := ArrayVar.base_ge ha
  have hplaced := hvs v hv
  unfold Var.Placed scalarSpace at hplaced
  unfold Var.Covers at hcov
  omega

theorem State.banked_eq {s : State} {a : ArrayVar} (ha : a.Placed) (hbank : s.bank = a.bank)
    {k : Nat} (hk : s.bl + s.bh * 16 = k) : s.banked a.addr = a.base + k := by
  obtain ⟨slot, hslot, haddr⟩ := ha.slot
  unfold banked ArrayVar.base
  rw [hbank, haddr]
  unfold slotsPerBank at hslot
  unfold slotSize
  omega

/-! ### Loops of straight code -/

theorem Transforms.range {f : Nat → List Line} {P : Nat → Memory → Prop} {n : Nat} {m : Memory}
    (h0 : P 0 m)
    (hstep : ∀ i < n, ∀ m, P i m → ∃ m', Transforms (f i) m m' ∧ P (i + 1) m') :
    ∃ m', Transforms ((List.range n).flatMap f) m m' ∧ P n m' := by
  induction n with
  | zero => exact ⟨m, .nil m, h0⟩
  | succ n ih =>
    obtain ⟨m₁, h₁, hP₁⟩ := ih fun i hi => hstep i (by omega)
    obtain ⟨m₂, h₂, hP₂⟩ := hstep n (by omega) m₁ hP₁
    refine ⟨m₂, ?_, hP₂⟩
    rw [List.range_succ, List.flatMap_append, List.flatMap_singleton]
    exact h₁.append h₂

namespace Code

variable {m : Memory} {a src dst : ArrayVar} {index v offset : Var}

/-! ### The offset of an element -/

/-- A digit of an index is loaded, and zero where it has none. -/
theorem performAll_indexDigit {t : State} (hb : t.bank = 0) (hm : t.mem.Nibbles)
    (hi : index.Placed) {i addr : Nat} (hd : addr < 4096) :
    ∃ u, t.performAll [if i < index.cells then load (index.cell i) else loadImm 0, store addr] =
      some u ∧ Stores t u addr (t.mem.get index / 16 ^ i % 16) := by
  split
  · rename_i h
    rw [Memory.get, Memory.number_digit hm h]
    exact performAll_move t hb (Var.cell_lt hi h) hd
  · rename_i h
    have hlt : t.mem.get index < 16 ^ i := lt_of_lt_of_le (t.mem.get_lt hm index)
      (Nat.pow_le_pow_right (by decide) (Nat.le_of_not_lt h))
    rw [Nat.div_eq_of_lt hlt]
    exact ⟨{ t with acc := 0, mem := t.mem.write addr 0 }, by simp [hb, hd],
      ⟨rfl, rfl, rfl, rfl⟩⟩

/-- `offset := ` the lowest two cells of the index. -/
theorem transforms_indexByte (hm : m.Nibbles) (hi : index.Placed) (ho : offset.Placed)
    (hbyte : offset.width = .byte) (hap : index.Apart offset) :
    Transforms [load (index.cell 0), store (offset.cell 0),
      if index.width == .nibble then loadImm 0 else load (index.cell 1), store (offset.cell 1)]
      m (m.set offset (m.get index)) := by
  intro s hb hs
  subst hs
  have hcells : offset.cells = 2 := by rw [Var.cells, hbyte, Width.cells]
  obtain ⟨t, hst, hfill, hnum⟩ := State.performAll_fill (s := s)
    (f := fun i => [if i < index.cells then load (index.cell i) else loadImm 0,
      store (offset.cell i)])
    (P := fun i x _ => x = s.mem.get index % 16 ^ i)
    hb hm ho le_rfl (by simp [Nat.mod_one]) (by
      intro i hi' t x hfill hx
      have hget : t.mem.get index = s.mem.get index := Memory.get_congr fun addr haddr =>
        hfill.same addr (by unfold Var.Covers at haddr; unfold Var.Apart at hap; omega)
      obtain ⟨u, htu, hu⟩ := performAll_indexDigit (i := i) hfill.bank hfill.nibbles hi
        (Var.cell_lt ho hi')
      rw [hget] at hu
      exact ⟨u, _, htu, hu, Nat.mod_lt _ (by decide),
        by rw [hx, Nat.mod_pow_succ, Nat.mul_comm (16 ^ i)]⟩)
  refine ⟨t, ?_, hfill.bank, hfill.mem_eq ho hnum, hfill.out, hfill.inp⟩
  have hwide : (1 < index.cells) = ¬ (index.width == .nibble) = true := by
    unfold Var.cells
    cases index.width <;> simp [Width.cells]
  have hlist : (List.range 2).flatMap (fun i => [if i < index.cells then load (index.cell i)
      else loadImm 0, store (offset.cell i)]) = [load (index.cell 0), store (offset.cell 0),
      if index.width == .nibble then loadImm 0 else load (index.cell 1), store (offset.cell 1)] := by
    simp only [List.range_succ, List.range_zero, List.nil_append, List.flatMap_cons,
      List.cons_append, List.flatMap_nil, List.append_nil, if_pos index.cells_pos, hwide, ite_not]
  rw [← hlist, ← hcells]
  exact hst

/-- Doubling what was just stored. -/
theorem transforms_double (hm : m.Nibbles) (hv : v.Placed) (x : Nat) :
    Transforms (shiftLeft v) (m.set v x) (m.set v (2 * x)) := by
  have h := transforms_shiftLeft (Memory.nibbles_set (v := v) (x := x) hm) hv
  have hmod : m.set v (2 * (x % 16 ^ v.cells)) = m.set v (2 * x) := by
    rw [← Memory.set_mod hm hv, Nat.mul_mod_mod, Memory.set_mod hm hv]
  rwa [Memory.set_set hm hv, Memory.get_set_same hv, hmod] at h

/-- `offset := ` the cell offset of an element. -/
theorem transforms_elementOffset (hm : m.Nibbles) (hi : index.Placed) (ho : offset.Placed)
    (hbyte : offset.width = .byte) (hap : index.Apart offset) :
    Transforms (elementOffset a index offset) m
      (m.set offset (m.get index * a.width.cells)) := by
  have hstart := transforms_indexByte hm hi ho hbyte hap
  unfold elementOffset
  cases a.width with
  | nibble =>
    simp only [Width.cells, Nat.mul_one, List.append_nil]
    exact hstart
  | byte =>
    rw [Width.cells, Nat.mul_comm]
    exact hstart.append (transforms_double hm ho _)
  | word =>
    rw [Width.cells, Nat.mul_comm, show 4 * m.get index = 2 * (2 * m.get index) by ring]
    exact hstart.append ((transforms_double hm ho _).append (transforms_double hm ho _))

/-! ### One cell of an element -/

theorem performAll_point {s : State} (hb : s.bank = 0) (ho : offset.Placed)
    (hbyte : offset.width = .byte) :
    ∃ t, s.performAll (point offset) = some t ∧ s.Same t ∧
      t.bl + t.bh * 16 = s.mem.get offset := by
  have hcells : offset.cells = 2 := by rw [Var.cells, hbyte, Width.cells]
  refine ⟨{ s with acc := s.mem.read (offset.cell 1), bl := s.mem.read (offset.cell 0),
                   bh := s.mem.read (offset.cell 1) }, ?_, ⟨rfl, rfl, rfl, rfl⟩, ?_⟩
  · simp [point, hb, Var.cell_lt ho (by omega : 0 < offset.cells),
      Var.cell_lt ho (by omega : 1 < offset.cells)]
  · simp [Memory.get, hcells, Memory.number_succ, Var.cell]

theorem get_offset_lt (hm : m.Nibbles) (hbyte : offset.width = .byte) :
    m.get offset < slotSize := by
  have h := m.get_lt hm offset
  rwa [Var.cells, hbyte] at h

/-- A cell of an array is copied to a cell of bank 0. -/
theorem transforms_fetch (hm : m.Nibbles) (ha : a.Placed) (ho : offset.Placed)
    (hbyte : offset.width = .byte) {addr : Nat} (hd : addr < 4096) :
    Transforms (point offset ++
      [bank a.bank, .inst (.lda (.banked a.addr)), bank 0, store addr]) m
      (m.write addr (m.read (a.base + m.get offset))) := by
  intro s hb hs
  subst hs
  obtain ⟨t, hst, hsame, hpair⟩ := performAll_point hb ho hbyte
  let u : State := { t with bank := a.bank }
  have hbank : a.bank % 16 = a.bank := Nat.mod_eq_of_lt (Nat.lt_succ_of_le ha.bank_le)
  have hcell : u.banked a.addr = a.base + s.mem.get offset := State.banked_eq ha rfl hpair
  have hlt : u.banked a.addr < memorySize := by
    rw [hcell]
    exact ArrayVar.cell_lt ha (get_offset_lt hm hbyte)
  refine ⟨{ t with acc := u.mem.read (u.banked a.addr), bank := 0,
                   mem := u.mem.write addr (u.mem.read (u.banked a.addr)) }, ?_, rfl, ?_,
    hsame.out, hsame.inp⟩
  · rw [State.performAll_append, hst]
    simp only [Option.bind_some, State.performAll_cons, State.perform_bank, hbank]
    rw [State.perform_loadBanked u hlt]
    simp [hd, u]
  · rw [hcell, show u.mem = s.mem from hsame.mem]

/-- A cell of bank 0 is copied to a cell of an array. -/
theorem transforms_deposit (hm : m.Nibbles) (ha : a.Placed) (ho : offset.Placed)
    (hbyte : offset.width = .byte) {addr : Nat} (hd : addr < 4096) :
    Transforms (point offset ++
      [load addr, bank a.bank, .inst (.sta (.banked a.addr)), bank 0]) m
      (m.write (a.base + m.get offset) (m.read addr)) := by
  intro s hb hs
  subst hs
  obtain ⟨t, hst, hsame, hpair⟩ := performAll_point hb ho hbyte
  let u : State := { t with acc := t.mem.read addr, bank := a.bank }
  have hbank : a.bank % 16 = a.bank := Nat.mod_eq_of_lt (Nat.lt_succ_of_le ha.bank_le)
  have hcell : u.banked a.addr = a.base + s.mem.get offset := State.banked_eq ha rfl hpair
  have hlt : u.banked a.addr < memorySize := by
    rw [hcell]
    exact ArrayVar.cell_lt ha (get_offset_lt hm hbyte)
  refine ⟨{ u with bank := 0, mem := u.mem.write (u.banked a.addr) u.acc }, ?_, rfl, ?_,
    hsame.out, hsame.inp⟩
  · rw [State.performAll_append, hst]
    simp only [Option.bind_some, State.performAll_cons, State.perform_bank, hbank,
      State.perform_load t (hsame.bank.trans hb) hd]
    rw [State.perform_storeBanked u hlt]
    simp
  · rw [hcell, show u.acc = s.mem.read addr by simp [u, hsame.mem], show u.mem = s.mem from hsame.mem]

/-! ### Whole elements -/

/-- Go on to the next cell of an element, if there is one. -/
theorem transforms_advance (hm : m.Nibbles) (ho : offset.Placed) {i count : Nat} :
    Transforms (if i + 1 < count then increment offset else []) m
      (if i + 1 < count then m.set offset (m.get offset + 1) else m) := by
  split
  · exact transforms_increment hm ho
  · exact .nil m

/-- `v := arr[index]`. -/
theorem transforms_readElement (hm : m.Nibbles) (ha : a.Placed) (hi : index.Placed)
    (ho : offset.Placed) (hv : v.Placed) (hbyte : offset.width = .byte) (hw : v.width = a.width)
    (hio : index.Apart offset) (hvo : v.Apart offset) :
    ∃ m', Transforms (readElement a index v offset) m m' ∧ m'.Nibbles ∧
      m.SameOff [v, offset] m' ∧
      m'.get v = m.number (a.base + a.offset (m.get index)) a.width.cells := by
  let m₀ := m.set offset (m.get index * a.width.cells)
  have hcells : v.cells = a.width.cells := by rw [Var.cells, hw]
  have hoffset : m₀.get offset = a.offset (m.get index) := by
    rw [Memory.get_set_same ho, ArrayVar.offset, Var.cells, hbyte]
    rfl
  obtain ⟨m', hloop, hm', hsame, hnum, -⟩ := Transforms.range (m := m₀)
    (f := fun i => point offset
      ++ [bank a.bank, .inst (.lda (.banked a.addr)), bank 0, store (v.cell i)]
      ++ if i + 1 < a.width.cells then increment offset else [])
    (n := a.width.cells)
    (P := fun i μ => μ.Nibbles ∧ m.SameOff [v, offset] μ ∧
      μ.number v.addr i = m.number (a.base + a.offset (m.get index)) i ∧
      (i < a.width.cells → μ.get offset = a.offset (m.get index) + i))
    ⟨Memory.nibbles_set hm, Memory.sameOff_set (by simp) _ _, rfl, fun _ => hoffset⟩ (by
      rintro i hi' μ ⟨hμ, hsame, hnum, hget⟩
      have hcell : μ.read (a.base + μ.get offset) =
          m.read (a.base + a.offset (m.get index) + i) := by
        rw [hget hi', Nat.add_assoc]
        exact hsame.read_array ha (by simpa using ⟨hv, ho⟩)
      have hfetch := transforms_fetch hμ ha ho hbyte (Var.cell_lt hv (hcells ▸ hi'))
      rw [hcell] at hfetch
      let μ' := μ.write (v.addr + i) (m.read (a.base + a.offset (m.get index) + i))
      have hμ' : μ'.Nibbles := Memory.nibbles_write hμ (hm _)
      have hlt : v.addr + i < memorySize := lt_trans (Var.cell_lt hv (hcells ▸ hi')) (by decide)
      have hnum' : μ'.number v.addr (i + 1) =
          m.number (a.base + a.offset (m.get index)) (i + 1) := by
        rw [Memory.number_write_next hlt, hnum, Memory.number_succ]
      have hsame' : m.SameOff [v, offset] μ' :=
        hsame.trans (Memory.sameOff_write (v := v) (by simp) ⟨by omega, by omega⟩ _ _)
      have hget' : μ'.get offset = a.offset (m.get index) + i := by
        rw [← hget hi']
        refine Memory.get_congr fun addr hcov => Memory.read_write_of_ne _ _ ?_
        unfold Var.Covers at hcov
        unfold Var.Apart at hvo
        omega
      refine ⟨_, hfetch.append (transforms_advance (i := i) hμ' ho), ?_⟩
      split
      · rename_i hnext
        have hlt := ArrayVar.offset_add_lt (a := a) (m.get index) hnext
        refine ⟨Memory.nibbles_set hμ', hsame'.trans (Memory.sameOff_set (by simp) _ _), ?_,
          fun _ => ?_⟩
        · rw [← hnum']
          exact Memory.number_writeNumber_of_apart (by unfold Var.Apart at hvo; omega)
        · rw [Memory.get_set_same ho, hget', Var.cells, hbyte]
          exact Nat.mod_eq_of_lt hlt
      · exact ⟨hμ', hsame', hnum', fun h => absurd h ‹_›⟩)
  refine ⟨m', (transforms_elementOffset hm hi ho hbyte hio).append hloop, hm', hsame, ?_⟩
  rw [Memory.get, hcells, hnum]

/-- `arr[index] := v`. -/
theorem transforms_writeElement (hm : m.Nibbles) (ha : a.Placed) (hi : index.Placed)
    (ho : offset.Placed) (hv : v.Placed) (hbyte : offset.width = .byte) (hw : v.width = a.width)
    (hio : index.Apart offset) (hvo : v.Apart offset) :
    ∃ m', Transforms (writeElement a index v offset) m m' ∧ m'.Nibbles ∧
      (∀ addr, ¬ offset.Covers addr →
        ¬ (a.base + a.offset (m.get index) ≤ addr ∧
          addr < a.base + a.offset (m.get index) + a.width.cells) →
        m'.read addr = m.read addr) ∧
      m'.number (a.base + a.offset (m.get index)) a.width.cells = m.get v := by
  let m₀ := m.set offset (m.get index * a.width.cells)
  have hcells : v.cells = a.width.cells := by rw [Var.cells, hw]
  have hoffset : m₀.get offset = a.offset (m.get index) := by
    rw [Memory.get_set_same ho, ArrayVar.offset, Var.cells, hbyte]
    rfl
  have hbase := ArrayVar.base_ge ha
  have hplaced : v.addr + v.cells ≤ 4096 := hv
  have hplaced' : offset.addr + offset.cells ≤ 4096 := ho
  obtain ⟨m', hloop, hm', hsame, hnum, -⟩ := Transforms.range (m := m₀)
    (f := fun i => point offset
      ++ [load (v.cell i), bank a.bank, .inst (.sta (.banked a.addr)), bank 0]
      ++ if i + 1 < a.width.cells then increment offset else [])
    (n := a.width.cells)
    (P := fun i μ => μ.Nibbles ∧
      (∀ addr, ¬ offset.Covers addr →
        ¬ (a.base + a.offset (m.get index) ≤ addr ∧
          addr < a.base + a.offset (m.get index) + i) → μ.read addr = m.read addr) ∧
      μ.number (a.base + a.offset (m.get index)) i = m.number v.addr i ∧
      (i < a.width.cells → μ.get offset = a.offset (m.get index) + i))
    ⟨Memory.nibbles_set hm, fun _ h _ => Memory.read_set_of_not h, rfl, fun _ => hoffset⟩ (by
      rintro i hi' μ ⟨hμ, hsame, hnum, hget⟩
      have hdigit : μ.read (v.cell i) = m.read (v.addr + i) := by
        refine hsame _ ?_ ?_ <;> unfold Var.cell
        · unfold Var.Covers
          unfold Var.Apart at hvo
          omega
        · omega
      have hdeposit := transforms_deposit hμ ha ho hbyte (Var.cell_lt hv (hcells ▸ hi'))
      rw [hget hi', ← Nat.add_assoc, hdigit] at hdeposit
      let μ' := μ.write (a.base + a.offset (m.get index) + i) (m.read (v.addr + i))
      have hμ' : μ'.Nibbles := Memory.nibbles_write hμ (hm _)
      have hlt : a.base + a.offset (m.get index) + i < memorySize := by
        rw [Nat.add_assoc]
        exact ArrayVar.cell_lt ha (ArrayVar.offset_add_lt _ hi')
      have hnum' : μ'.number (a.base + a.offset (m.get index)) (i + 1) =
          m.number v.addr (i + 1) := by
        rw [Memory.number_write_next hlt, hnum, Memory.number_succ]
      have hsame' : ∀ addr, ¬ offset.Covers addr →
          ¬ (a.base + a.offset (m.get index) ≤ addr ∧
            addr < a.base + a.offset (m.get index) + (i + 1)) → μ'.read addr = m.read addr := by
        intro addr hcov hrange
        rw [Memory.read_write_of_ne _ _ (by omega)]
        exact hsame addr hcov (by omega)
      have hget' : μ'.get offset = a.offset (m.get index) + i := by
        rw [← hget hi']
        refine Memory.get_congr fun addr hcov => Memory.read_write_of_ne _ _ ?_
        unfold Var.Covers at hcov
        omega
      refine ⟨_, hdeposit.append (transforms_advance (i := i) hμ' ho), ?_⟩
      split
      · rename_i hnext
        have hlt := ArrayVar.offset_add_lt (a := a) (m.get index) hnext
        refine ⟨Memory.nibbles_set hμ', fun addr hcov hrange => ?_, ?_, fun _ => ?_⟩
        · rw [Memory.read_set_of_not hcov]
          exact hsame' addr hcov hrange
        · rw [← hnum']
          exact Memory.number_writeNumber_of_apart (by omega)
        · rw [Memory.get_set_same ho, hget', Var.cells, hbyte]
          exact Nat.mod_eq_of_lt hlt
      · exact ⟨hμ', hsame', hnum', fun h => absurd h ‹_›⟩)
  refine ⟨m', (transforms_elementOffset hm hi ho hbyte hio).append hloop, hm', hsame, ?_⟩
  rw [hnum, Memory.get, hcells]

/-! ### Running over a slot -/

theorem performAll_pointCell {s : State} {i : Nat} (h : i ≠ 0 → s.bh = (i - 1) / 16 % 16) :
    ∃ t, s.performAll (pointCell i) = some t ∧ s.Same t ∧ t.bl = i % 16 ∧ t.bh = i / 16 % 16 := by
  unfold pointCell
  split
  · exact ⟨{ s with acc := i / 16 % 16, bl := i % 16, bh := i / 16 % 16 }, by simp,
      ⟨rfl, rfl, rfl, rfl⟩, rfl, rfl⟩
  · rename_i hkeep
    have hrow : s.bh = i / 16 % 16 := by
      cases i with
      | zero => exact absurd rfl hkeep
      | succ i =>
        have hsame : (i + 1) / 16 % 16 = i / 16 % 16 := by simpa [opensRow] using hkeep
        exact (h i.succ_ne_zero).trans hsame.symm
    exact ⟨{ s with acc := i % 16, bl := i % 16 }, by simp, ⟨rfl, rfl, rfl, rfl⟩, rfl, hrow⟩

end Code

/-- The memory with constants stored into a slot, from its cell number `i` on. -/
def Memory.fill (m : Memory) (base : Nat) : Nat → List Nat → Memory
  | _, [] => m
  | i, x :: xs => (m.write (base + i % slotSize) (x % 16)).fill base (i + 1) xs

/-- The memory with the lowest `n` cells of a slot copied to another one. -/
def Memory.copy (m : Memory) (source target : Nat) : Nat → Memory
  | 0 => m
  | n + 1 =>
      (m.copy source target n).write (target + n % slotSize)
        ((m.copy source target n).read (source + n % slotSize))

theorem Memory.read_fill {m : Memory} {base addr : Nat} (hbase : base + slotSize ≤ memorySize)
    {cells : List Nat} {i : Nat} (hlen : i + cells.length ≤ slotSize) :
    (m.fill base i cells).read addr =
      if base + i ≤ addr ∧ addr < base + i + cells.length
      then cells[addr - (base + i)]?.getD 0 % 16 else m.read addr := by
  induction cells generalizing m i with
  | nil =>
    rw [fill, if_neg (by simp)]
  | cons x xs ih =>
    rw [List.length_cons] at hlen
    rw [fill, Nat.mod_eq_of_lt (by omega : i < slotSize), ih (by omega),
      Memory.read_write (by omega)]
    by_cases hfirst : addr = base + i
    · subst hfirst
      simp
    · rw [if_neg hfirst]
      by_cases hrest : base + (i + 1) ≤ addr ∧ addr < base + (i + 1) + xs.length
      · have hidx : addr - (base + i) = addr - (base + (i + 1)) + 1 := by omega
        rw [if_pos hrest, if_pos (by simp; omega), hidx, List.getElem?_cons_succ]
      · rw [if_neg hrest, if_neg (by simp; omega)]

theorem Memory.nibbles_fill {m : Memory} (hm : m.Nibbles) {base i : Nat} {cells : List Nat} :
    (m.fill base i cells).Nibbles := by
  induction cells generalizing m i with
  | nil => exact hm
  | cons x xs ih => exact ih (Memory.nibbles_write hm (Nat.mod_lt _ (by decide)))

theorem Memory.nibbles_copy {m : Memory} (hm : m.Nibbles) {source target n : Nat} :
    (m.copy source target n).Nibbles := by
  induction n with
  | zero => exact hm
  | succ n ih => exact Memory.nibbles_write ih (ih _)

theorem Memory.read_copy_below {m : Memory} {source target addr n : Nat} (h : addr < target) :
    (m.copy source target n).read addr = m.read addr := by
  induction n with
  | zero => rfl
  | succ n ih => rw [copy, Memory.read_write_of_ne _ _ (by omega), ih]

/-- Every cell is read before it is written. -/
theorem Memory.read_copy {m : Memory} {source target addr : Nat} {n : Nat}
    (hsize : target + slotSize ≤ memorySize) (hn : n ≤ slotSize)
    (h : ∀ k < n, ¬ (target ≤ source + k ∧ source + k < target + k)) :
    (m.copy source target n).read addr =
      if target ≤ addr ∧ addr < target + n then m.read (source + (addr - target))
      else m.read addr := by
  induction n generalizing addr with
  | zero => rw [copy, if_neg (by omega)]
  | succ n ih =>
    have hlower : ∀ k < n, ¬ (target ≤ source + k ∧ source + k < target + k) :=
      fun k hk => h k (by omega)
    rw [copy, Nat.mod_eq_of_lt (by omega : n < slotSize), Memory.read_write (by omega),
      ih (by omega) hlower, ih (by omega) hlower, if_neg (h n (by omega))]
    by_cases hlast : addr = target + n
    · subst hlast
      simp
    · rw [if_neg hlast]
      by_cases hrest : target ≤ addr ∧ addr < target + n
      · rw [if_pos hrest, if_pos (by omega)]
      · rw [if_neg hrest, if_neg (by omega)]

namespace Code

variable {m : Memory} {a src dst : ArrayVar}

theorem performAll_fillCells {s : State} (ha : a.Placed) (hbank : s.bank = a.bank)
    {cells : List Nat} {i : Nat} (h : i ≠ 0 → s.bh = (i - 1) / 16 % 16) :
    ∃ t, s.performAll ((cells.zipIdx i).flatMap fun (value, i) =>
        pointCell i ++ [loadImm value, .inst (.sta (.banked a.addr))]) = some t ∧
      t.mem = s.mem.fill a.base i cells ∧ t.out = s.out ∧ t.inp = s.inp := by
  induction cells generalizing s i with
  | nil => exact ⟨s, rfl, rfl, rfl, rfl⟩
  | cons x xs ih =>
    obtain ⟨t, hst, hsame, hbl, hbh⟩ := performAll_pointCell h
    have hcell : t.banked a.addr = a.base + i % slotSize :=
      State.banked_eq ha (hsame.bank.trans hbank) (by rw [hbl, hbh]; unfold slotSize; omega)
    have hlt : t.banked a.addr < memorySize := by
      rw [hcell]
      exact ArrayVar.cell_lt ha (Nat.mod_lt _ (by decide))
    let u : State := { t with acc := x % 16, mem := t.mem.write (a.base + i % slotSize) (x % 16) }
    obtain ⟨v, huv, hv⟩ := ih (s := u) (hsame.bank.trans hbank) (i := i + 1) fun _ => hbh
    refine ⟨v, ?_, ?_⟩
    · have htu : t.performAll [loadImm x, .inst (.sta (.banked a.addr))] = some u := by
        have hstore := State.perform_storeBanked { t with acc := x % 16 } hlt
        simp only [State.performAll_cons, State.perform_loadImm, Option.bind_some, hstore,
          State.performAll_nil, u, ← hcell]
        rfl
      rw [List.zipIdx_cons, List.flatMap_cons]
      simp only [State.performAll_append, hst, Option.bind_some, htu]
      exact huv
    · have hmem : u.mem = s.mem.write (a.base + i % slotSize) (x % 16) := by
        simp only [u, hsame.mem]
      rw [hmem] at hv
      exact ⟨hv.1, hv.2.1.trans hsame.out, hv.2.2.trans hsame.inp⟩

/-- Constants are stored into an array. -/
theorem performAll_fillArray (ha : a.Placed) (cells : List Nat) (s : State) :
    ∃ t, s.performAll (fillArray a cells) = some t ∧ t.bank = 0 ∧
      t.mem = s.mem.fill a.base 0 cells ∧ t.out = s.out ∧ t.inp = s.inp := by
  have hbank : a.bank % 16 = a.bank := Nat.mod_eq_of_lt (Nat.lt_succ_of_le ha.bank_le)
  obtain ⟨t, hst, hmem, hout, hinp⟩ := performAll_fillCells (s := { s with bank := a.bank })
    ha rfl (i := 0) (absurd rfl)
  refine ⟨{ t with bank := 0 }, ?_, rfl, hmem, hout, hinp⟩
  simp [fillArray, hbank, hst]

theorem transforms_fillArray (ha : a.Placed) (cells : List Nat) :
    Transforms (fillArray a cells) m (m.fill a.base 0 cells) := by
  rintro s - rfl
  exact performAll_fillArray ha cells s

/-- The cells of an array are copied into another one. -/
theorem performAll_copyArray (hsrc : src.Placed) (hdst : dst.Placed) (s : State) :
    ∃ t, s.performAll (copyArray src dst) = some t ∧ t.bank = 0 ∧
      t.mem = s.mem.copy src.base dst.base src.size ∧ t.out = s.out ∧ t.inp = s.inp := by
  have hbs : src.bank % 16 = src.bank := Nat.mod_eq_of_lt (Nat.lt_succ_of_le hsrc.bank_le)
  have hbd : dst.bank % 16 = dst.bank := Nat.mod_eq_of_lt (Nat.lt_succ_of_le hdst.bank_le)
  obtain ⟨t, hst, hmem, hout, hinp, -⟩ := State.performAll_range (s := s) (n := src.size)
    (f := fun i => pointCell i ++ [bank src.bank, .inst (.lda (.banked src.addr)),
      bank dst.bank, .inst (.sta (.banked dst.addr))])
    (P := fun i t => t.mem = s.mem.copy src.base dst.base i ∧ t.out = s.out ∧ t.inp = s.inp ∧
      (i ≠ 0 → t.bh = (i - 1) / 16 % 16)) ⟨rfl, rfl, rfl, absurd rfl⟩ (by
      rintro i - t ⟨hmem, hout, hinp, hbh⟩
      obtain ⟨u, htu, hsame, hbl, hbh⟩ := performAll_pointCell hbh
      have hpair : u.bl + u.bh * 16 = i % slotSize := by
        rw [hbl, hbh]
        unfold slotSize
        omega
      have hslot : i % slotSize < slotSize := Nat.mod_lt _ (by decide)
      let v : State := { u with bank := src.bank }
      have hload : v.banked src.addr = src.base + i % slotSize := State.banked_eq hsrc rfl hpair
      let w : State := { v with acc := v.mem.read (src.base + i % slotSize), bank := dst.bank }
      have hstore : w.banked dst.addr = dst.base + i % slotSize := State.banked_eq hdst rfl hpair
      refine ⟨{ w with mem := w.mem.write (dst.base + i % slotSize) w.acc }, ?_, ?_,
        hsame.out.trans hout, hsame.inp.trans hinp, fun _ => hbh⟩
      · simp only [State.performAll_append, htu, Option.bind_some, State.performAll_cons,
          State.perform_bank, hbs, hbd]
        rw [State.perform_loadBanked v (by rw [hload]; exact ArrayVar.cell_lt hsrc hslot), hload,
          Option.bind_some, State.perform_storeBanked w (by rw [hstore]; exact ArrayVar.cell_lt hdst hslot), hstore]
        rfl
      · simp only [w, v, hsame.mem, hmem, Memory.copy])
  refine ⟨{ t with bank := 0 }, ?_, rfl, hmem, hout, hinp⟩
  simp [copyArray, hst]

theorem transforms_copyArray (hsrc : src.Placed) (hdst : dst.Placed) :
    Transforms (copyArray src dst) m (m.copy src.base dst.base src.size) := by
  rintro s - rfl
  exact performAll_copyArray hsrc hdst s

end Code

end NibblePascal
