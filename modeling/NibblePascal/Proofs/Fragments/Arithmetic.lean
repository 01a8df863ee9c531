import NibblePascal.Proofs.Fragments.Scalar
import Mathlib.Data.Nat.Bitwise

/-!
# Fragments for arithmetic

The operations of the arithmetic unit work on one digit, and a carry hands on what is left
over.  `AluOp.Partial op c i x y z c'` says what the lowest `i` digits of the operands, of the
result and the carry have to do with each other; `Partial.next` adds a digit, and
`Partial.eq_total` reads off the number when all digits are done.

The shift to the right goes from the highest digit down and has an invariant of its own.
-/

namespace NibblePascal

/-! ### Digit by digit -/

/-- An operation on bits works on the lowest digits and on the next one apart. -/
theorem bitwise_add_digit {f : Bool → Bool → Bool} {op : Nat → Nat → Nat}
    (hop : ∀ x y j, (op x y).testBit j = f (x.testBit j) (y.testBit j))
    (hf : f false false = false) {i x y : Nat} (hx : x < 16 ^ i) (hy : y < 16 ^ i) (a b : Nat) :
    op (x + a * 16 ^ i) (y + b * 16 ^ i) = op x y + op a b * 16 ^ i := by
  have hpow : (16 : Nat) ^ i = 2 ^ (4 * i) := (Nat.pow_mul 2 4 i).symm
  rw [hpow] at hx hy ⊢
  have hxy : op x y < 2 ^ (4 * i) := by
    refine Nat.lt_pow_two_of_testBit _ fun j hj => ?_
    have hle := Nat.pow_le_pow_right (n := 2) (by decide) hj
    rw [hop, Nat.testBit_lt_two_pow (hx.trans_le hle), Nat.testBit_lt_two_pow (hy.trans_le hle), hf]
  apply Nat.eq_of_testBit_eq
  intro j
  rw [hop, Nat.add_comm x, Nat.add_comm y, Nat.add_comm (op x y), Nat.mul_comm a, Nat.mul_comm b,
    Nat.mul_comm (op a b), Nat.testBit_two_pow_mul_add _ hx, Nat.testBit_two_pow_mul_add _ hy,
    Nat.testBit_two_pow_mul_add _ hxy]
  split <;> rw [hop]

namespace AluOp

/-- What the lowest `i` digits `x` and `y` of the operands, `z` of the result and the carry
after them have to do with each other; `c` is the carry before them. -/
def Partial (op : AluOp) (c : Bool) (i x y z : Nat) (c' : Bool) : Prop :=
  match op with
  | not => z + x + 1 = 16 ^ i
  | add => z + c'.toNat * 16 ^ i = x + y + c.toNat
  | sub => z + y + c.toNat = x + c'.toNat * 16 ^ i
  | and => z = x &&& y
  | or => z = x ||| y
  | xor => z = x ^^^ y
  | shl => z + c'.toNat * 16 ^ i = 2 * x + c.toNat
  | shr => False

/-- The number that an operation makes of whole numbers below `limit`, before it wraps there. -/
def total (op : AluOp) (c : Bool) (limit x y : Nat) : Nat :=
  match op with
  | not => limit - 1 - x
  | add => x + y + c.toNat
  | sub => x + limit - (y + c.toNat)
  | and => x &&& y
  | or => x ||| y
  | xor => x ^^^ y
  | shl => 2 * x + c.toNat
  | shr => x / 2

variable {op : AluOp} {c c' : Bool} {i x y z a b : Nat}

theorem Partial.start (hop : op ≠ shr) (c : Bool) : op.Partial c 0 0 0 0 c := by
  cases op <;> simp_all [Partial]

theorem result_lt (op : AluOp) (a b : Nat) (c : Bool) : (op.result a b c).1 < 16 := by
  have ha : a % 16 < 2 ^ 4 := Nat.mod_lt _ (by decide)
  have hb : b % 16 < 2 ^ 4 := Nat.mod_lt _ (by decide)
  have hc := c.toNat_le
  cases op with
  | and => exact Nat.and_lt_two_pow _ hb
  | or => exact Nat.or_lt_two_pow ha hb
  | xor => exact Nat.xor_lt_two_pow ha hb
  | _ =>
    simp only [result]
    omega

theorem result_add (ha : a < 16) (hb : b < 16) :
    (add.result a b c).1 + 16 * (add.result a b c).2.toNat = a + b + c.toNat := by
  have hc := c.toNat_le
  simp only [result, Nat.mod_eq_of_lt ha, Nat.mod_eq_of_lt hb]
  by_cases h : 15 < a + b + c.toNat <;> simp [h] <;> omega

theorem result_sub (ha : a < 16) (hb : b < 16) :
    (sub.result a b c).1 + b + c.toNat = a + 16 * (sub.result a b c).2.toNat := by
  have hc := c.toNat_le
  simp only [result, Nat.mod_eq_of_lt ha, Nat.mod_eq_of_lt hb]
  by_cases h : a < b + c.toNat <;> simp [h] <;> omega

theorem result_shl (ha : a < 16) :
    (shl.result a b c).1 + 16 * (shl.result a b c).2.toNat = 2 * a + c.toNat := by
  have hc := c.toNat_le
  simp only [result, Nat.mod_eq_of_lt ha]
  by_cases h : 8 ≤ a <;> simp [h] <;> omega

theorem result_shr (ha : a < 16) :
    2 * (shr.result a b c).1 + (shr.result a b c).2.toNat = a + 16 * c.toNat := by
  have hc := c.toNat_le
  simp only [result, Nat.mod_eq_of_lt ha]
  by_cases h : a % 2 = 1 <;> simp [h] <;> omega

/-- The next digit. -/
theorem Partial.next (h : op.Partial c i x y z c') (hx : x < 16 ^ i) (hy : y < 16 ^ i)
    (ha : a < 16) (hb : b < 16) :
    op.Partial c (i + 1) (x + a * 16 ^ i) (y + b * 16 ^ i)
      (z + (op.result a b c').1 * 16 ^ i) (op.result a b c').2 := by
  cases op with
  | not =>
    have hd : (not.result a b c').1 + a = 15 := by
      simp only [result]
      omega
    calc z + (not.result a b c').1 * 16 ^ i + (x + a * 16 ^ i) + 1
        = (z + x + 1) + ((not.result a b c').1 + a) * 16 ^ i := by ring
      _ = 16 ^ i + 15 * 16 ^ i := by rw [hd, h]
      _ = 16 ^ (i + 1) := by ring
  | add =>
    have hd := result_add (c := c') ha hb
    calc z + (add.result a b c').1 * 16 ^ i + (add.result a b c').2.toNat * 16 ^ (i + 1)
        = z + ((add.result a b c').1 + 16 * (add.result a b c').2.toNat) * 16 ^ i := by ring
      _ = (z + c'.toNat * 16 ^ i) + (a + b) * 16 ^ i := by rw [hd]; ring
      _ = (x + a * 16 ^ i) + (y + b * 16 ^ i) + c.toNat := by rw [h]; ring
  | sub =>
    have hd := result_sub (c := c') ha hb
    refine Nat.add_right_cancel (m := c'.toNat * 16 ^ i) ?_
    calc z + (sub.result a b c').1 * 16 ^ i + (y + b * 16 ^ i) + c.toNat + c'.toNat * 16 ^ i
        = (z + y + c.toNat) + ((sub.result a b c').1 + b + c'.toNat) * 16 ^ i := by ring
      _ = (x + c'.toNat * 16 ^ i) + (a + 16 * (sub.result a b c').2.toNat) * 16 ^ i := by
          rw [hd, h]
      _ = (x + a * 16 ^ i) + (sub.result a b c').2.toNat * 16 ^ (i + 1) + c'.toNat * 16 ^ i := by
          ring
  | shl =>
    have hd := result_shl (b := b) (c := c') ha
    calc z + (shl.result a b c').1 * 16 ^ i + (shl.result a b c').2.toNat * 16 ^ (i + 1)
        = z + ((shl.result a b c').1 + 16 * (shl.result a b c').2.toNat) * 16 ^ i := by ring
      _ = (z + c'.toNat * 16 ^ i) + 2 * a * 16 ^ i := by rw [hd]; ring
      _ = 2 * (x + a * 16 ^ i) + c.toNat := by rw [h]; ring
  | and =>
    have hz : z = _ := h
    rw [hz]
    simp only [Partial, result, Nat.mod_eq_of_lt ha, Nat.mod_eq_of_lt hb]
    exact (bitwise_add_digit (fun _ _ _ => Nat.testBit_and ..) rfl hx hy a b).symm
  | or =>
    have hz : z = _ := h
    rw [hz]
    simp only [Partial, result, Nat.mod_eq_of_lt ha, Nat.mod_eq_of_lt hb]
    exact (bitwise_add_digit (fun _ _ _ => Nat.testBit_or ..) rfl hx hy a b).symm
  | xor =>
    have hz : z = _ := h
    rw [hz]
    simp only [Partial, result, Nat.mod_eq_of_lt ha, Nat.mod_eq_of_lt hb]
    exact (bitwise_add_digit (fun _ _ _ => Nat.testBit_xor ..) rfl hx hy a b).symm
  | shr => exact h

/-- When all digits are done the result is the whole number, wrapped. -/
theorem Partial.eq_total (h : op.Partial c i x y z c') (hx : x < 16 ^ i) (hy : y < 16 ^ i)
    (hz : z < 16 ^ i) : z = op.total c (16 ^ i) x y % 16 ^ i := by
  have hcases : c'.toNat = 0 ∨ c'.toNat = 1 := by cases c' <;> simp
  have hc := c.toNat_le
  rw [← Nat.mod_eq_of_lt hz]
  cases op with
  | add =>
    simp only [Partial] at h
    rw [total, ← h, Nat.add_mul_mod_self_right]
  | shl =>
    simp only [Partial] at h
    rw [total, ← h, Nat.add_mul_mod_self_right]
  | sub =>
    simp only [Partial] at h
    rcases hcases with h0 | h1
    · have : total sub c (16 ^ i) x y = z + 16 ^ i := by
        simp only [total]
        rw [h0] at h
        omega
      rw [this, Nat.add_mod_right]
    · have : total sub c (16 ^ i) x y = z := by
        simp only [total]
        rw [h1] at h
        omega
      rw [this]
  | not =>
    simp only [Partial] at h
    have : total not c (16 ^ i) x y = z := by
      simp only [total]
      omega
    rw [this]
  | and => rw [h, total]
  | or => rw [h, total]
  | xor => rw [h, total]
  | shr => exact absurd h id

end AluOp

/-! ### Combining scalars -/

namespace Code

variable {m : Memory} {a b dst v : Var} {op : AluOp}

/-- The carry that the digit with number `i` of a combination starts with. -/
def carryBefore (op : AluOp) (i : Nat) (carry : Bool) : Bool :=
  if chains op && i == 0 then false else carry

theorem performAll_combineCell (op : AluOp) (t : State) {x y z i : Nat} (hb : t.bank = 0) (hx : x < 4096)
    (hy : y < 4096) (hz : z < 4096) :
    ∃ u, t.performAll ([load y, toLow, load x]
        ++ (if chains op && i == 0 then [carry 0] else []) ++ [alu op, store z]) = some u ∧
      Stores t u z (op.result (t.mem.read x) (t.mem.read y)
        (carryBefore op i t.flags.carry)).1 ∧
      u.flags.carry = (op.result (t.mem.read x) (t.mem.read y)
        (carryBefore op i t.flags.carry)).2 := by
  let flags : Flags := { t.flags with carry := carryBefore op i t.flags.carry }
  let r := op.apply (t.mem.read x) (t.mem.read y) flags
  refine ⟨{ t with acc := r.1, bl := t.mem.read y, flags := r.2, mem := t.mem.write z r.1 }, ?_,
    ⟨rfl, rfl, rfl, rfl⟩, rfl⟩
  by_cases h : (chains op && i == 0) = true
  · simp only [h, if_true]
    simp [hb, hx, hy, hz, r, flags, carryBefore, h]
  · simp only [h]
    simp [hb, hx, hy, hz, r, flags, carryBefore, h]

/-- `dst := a op b`.  The carry before counts only for an operation that does not set it. -/
theorem performAll_combine {s : State} (hb : s.bank = 0) (hm : s.mem.Nibbles) (ha : a.Placed)
    (hb' : b.Placed) (hdst : dst.Placed) (hab : a.cells = b.cells) (had : a.cells = dst.cells)
    (hca : a.Clear dst) (hcb : b.Clear dst) (hop : op ≠ .shr) :
    ∃ t, s.performAll (combine op a b dst) = some t ∧ t.bank = 0 ∧
      t.mem = s.mem.set dst (op.total (carryBefore op 0 s.flags.carry) (16 ^ dst.cells)
        (s.mem.get a) (s.mem.get b)) ∧ t.out = s.out ∧ t.inp = s.inp := by
  have h0 : op.Partial (carryBefore op 0 s.flags.carry) 0 0 0 0
      (carryBefore op 0 s.flags.carry) := AluOp.Partial.start hop _
  obtain ⟨t, hst, hfill, hnum⟩ := State.performAll_fill (s := s)
    (P := fun i z t => op.Partial (carryBefore op 0 s.flags.carry) i (s.mem.number a.addr i)
      (s.mem.number b.addr i) z (carryBefore op i t.flags.carry))
    hb hm hdst had.le h0 (by
      intro i hi t z hfill hz
      obtain ⟨u, htu, hu, hcarry⟩ := performAll_combineCell op (i := i) t hfill.bank
        (Var.cell_lt ha hi) (Var.cell_lt hb' (hab ▸ hi)) (Var.cell_lt hdst (had ▸ hi))
      refine ⟨u, _, htu, hu, AluOp.result_lt .., ?_⟩
      have hnext : carryBefore op (i + 1) u.flags.carry = u.flags.carry := by simp [carryBefore]
      have hra := hfill.read_operand hca hi (had ▸ hi)
      have hrb := hfill.read_operand hcb (hab ▸ hi) (had ▸ hi)
      rw [hnext, hcarry, Memory.number_succ, Memory.number_succ, Var.cell, Var.cell, hra, hrb]
      exact hz.next (hm.number_lt ..) (hm.number_lt ..) (hm _) (hm _))
  refine ⟨t, hst, hfill.bank, ?_, hfill.out, hfill.inp⟩
  rw [had] at hfill hnum
  refine hfill.mem_eq hdst ?_
  rw [← had] at hnum ⊢
  have := hnum.eq_total (hm.number_lt ..) (hm.number_lt ..)
    (hfill.nibbles.number_lt ..)
  rw [this, Memory.get, Memory.get, hab]

/-- `dst := a op b`. -/
theorem transforms_combine (op : AluOp) (hm : m.Nibbles) (ha : a.Placed) (hb : b.Placed) (hdst : dst.Placed)
    (hab : a.cells = b.cells) (had : a.cells = dst.cells) (hca : a.Clear dst)
    (hcb : b.Clear dst) (hshr : op ≠ .shr) (hshl : op ≠ .shl) :
    Transforms (combine op a b dst) m
      (m.set dst (op.total false (16 ^ dst.cells) (m.get a) (m.get b))) := by
  intro s hbank hs
  subst hs
  obtain ⟨t, hst, hbt, hmt, ho, hi⟩ := performAll_combine hbank hm ha hb hdst hab had hca hcb hshr
  refine ⟨t, hst, hbt, hmt.trans ?_, ho, hi⟩
  cases op with
  | shl => exact absurd rfl hshl
  | _ => rfl

/-! ### Changing a scalar in place -/

theorem performAll_inPlaceCell (op : AluOp) (t : State) {x : Nat} (hb : t.bank = 0) (hx : x < 4096) :
    ∃ u, t.performAll [load x, alu op, store x] = some u ∧
      Stores t u x (op.result (t.mem.read x) t.bl t.flags.carry).1 ∧ u.bl = t.bl ∧
      u.flags.carry = (op.result (t.mem.read x) t.bl t.flags.carry).2 := by
  let r := op.apply (t.mem.read x) t.bl t.flags
  refine ⟨{ t with acc := r.1, flags := r.2, mem := t.mem.write x r.1 }, ?_,
    ⟨rfl, rfl, rfl, rfl⟩, rfl, rfl⟩
  simp [hb, hx, r]

/-- An operation that finds zero in `B`, or takes no notice of it, goes over the cells of a
scalar. -/
theorem performAll_inPlace (op : AluOp) {s : State} (hb : s.bank = 0) (hm : s.mem.Nibbles) (hv : v.Placed)
    (hop : op ≠ .shr) (hbl : ∀ x c, op.result x s.bl c = op.result x 0 c) :
    ∃ t, s.performAll (assign v v (some op)) = some t ∧ t.bank = 0 ∧
      t.mem = s.mem.set v (op.total s.flags.carry (16 ^ v.cells) (s.mem.get v) 0) ∧
      t.out = s.out ∧ t.inp = s.inp := by
  obtain ⟨t, hst, hfill, hnum, -⟩ := State.performAll_fill (s := s)
    (P := fun i z t => op.Partial s.flags.carry i (s.mem.number v.addr i) 0 z t.flags.carry ∧
      t.bl = s.bl)
    hb hm hv le_rfl ⟨AluOp.Partial.start hop _, rfl⟩ (by
      rintro i hi t z hfill ⟨hz, hbl'⟩
      obtain ⟨u, htu, hu, hublt, hcarry⟩ :=
        performAll_inPlaceCell op t hfill.bank (Var.cell_lt hv hi)
      refine ⟨u, _, htu, hu, AluOp.result_lt .., ?_, hublt.trans hbl'⟩
      have hread := hfill.read_operand (Var.Clear.refl v) hi hi
      rw [hcarry, hbl', hbl, Memory.number_succ, Var.cell, hread]
      have hnext := hz.next (b := 0) (hm.number_lt ..) (Nat.pow_pos (by decide))
        (hm (v.addr + i)) (by decide)
      rwa [Nat.zero_mul, Nat.add_zero] at hnext)
  refine ⟨t, hst, hfill.bank, hfill.mem_eq hv ?_, hfill.out, hfill.inp⟩
  exact hnum.eq_total (hm.number_lt ..) (Nat.pow_pos (by decide))
    (hfill.nibbles.number_lt ..)

theorem transforms_step (op : AluOp) (hm : m.Nibbles) (hv : v.Placed) (hop : op ≠ .shr) :
    Transforms (step v op) m (m.set v (op.total true (16 ^ v.cells) (m.get v) 0)) := by
  intro s hb hs
  subst hs
  let t : State := { s with acc := 0, bl := 0, flags := { s.flags with carry := true } }
  obtain ⟨u, htu, hu⟩ := performAll_inPlace op (s := t) (v := v) hb hm hv hop
    fun _ _ => rfl
  exact ⟨u, by simpa [step, t] using htu, hu⟩

/-- `v := v + 1`. -/
theorem transforms_increment (hm : m.Nibbles) (hv : v.Placed) :
    Transforms (increment v) m (m.set v (m.get v + 1)) :=
  transforms_step _ hm hv (by decide)

/-- `v := v - 1`. -/
theorem transforms_decrement (hm : m.Nibbles) (hv : v.Placed) :
    Transforms (decrement v) m (m.set v (m.get v + 16 ^ v.cells - 1)) := by
  have h := transforms_step .sub hm hv (by decide)
  simpa [AluOp.total, decrement] using h

/-- `v := 2 * v`. -/
theorem transforms_shiftLeft (hm : m.Nibbles) (hv : v.Placed) :
    Transforms (shiftLeft v) m (m.set v (2 * m.get v)) := by
  intro s hb hs
  subst hs
  let t : State := { s with flags := { s.flags with carry := false } }
  obtain ⟨u, htu, hu⟩ := performAll_inPlace .shl (s := t) (v := v) hb hm hv (by decide)
    fun _ _ => rfl
  exact ⟨u, by simpa [shiftLeft, t] using htu, hu⟩

/-! ### Halving -/

theorem shiftRight_eq (v : Var) : shiftRight v =
    carry 0 :: (List.range v.cells).reverse.flatMap fun i =>
      [load (v.cell i), alu .shr, store (v.cell i)] := by
  rw [shiftRight, Var.cellList, ← List.map_reverse, List.flatMap_map]

/-- `v := v / 2`.  The invariant is about the digits from number `i` up: twice the new ones and
the carry make the old ones. -/
theorem transforms_shiftRight (hm : m.Nibbles) (hv : v.Placed) :
    Transforms (shiftRight v) m (m.set v (m.get v / 2)) := by
  intro s hb hs
  subst hs
  let s' : State := { s with flags := { s.flags with carry := false } }
  obtain ⟨t, hst, hfill, hnum⟩ := State.performAll_range_reverse (s := s') (n := v.cells)
    (f := fun i => [load (v.cell i), alu .shr, store (v.cell i)])
    (P := fun i t => Filling s t (v.addr + i) (v.cells - i) ∧
      2 * t.mem.number (v.addr + i) (v.cells - i) + t.flags.carry.toNat =
        s.mem.number (v.addr + i) (v.cells - i))
    ⟨⟨hb, rfl, rfl, hm, fun _ _ => rfl⟩, by simp [s']⟩ (by
      rintro i hi t ⟨hfill, hnum⟩
      obtain ⟨u, htu, hu, -, hcarry⟩ :=
        performAll_inPlaceCell .shr t hfill.bank (Var.cell_lt hv hi)
      have hread : t.mem.read (v.addr + i) = s.mem.read (v.addr + i) :=
        hfill.same _ (by omega)
      have hupper : u.mem.number (v.addr + i + 1) (v.cells - (i + 1)) =
          t.mem.number (v.addr + (i + 1)) (v.cells - (i + 1)) := by
        refine Memory.number_congr fun j hj => ?_
        rw [hu.mem, Memory.read_write_of_ne _ _ (by unfold Var.cell; omega)]
        rfl
      have hlow : u.mem.read (v.addr + i) =
          (AluOp.shr.result (s.mem.read (v.addr + i)) t.bl t.flags.carry).1 := by
        have hlt : v.addr + i < memorySize := lt_trans (Var.cell_lt hv hi) (by decide)
        rw [hu.mem, Var.cell, Memory.read_write_same _ _ hlt, hread]
      have hdigit := AluOp.result_shr (b := t.bl) (c := t.flags.carry) (hm (v.addr + i))
      refine ⟨u, htu, ⟨hu.bank.trans hfill.bank, hu.out.trans hfill.out, hu.inp.trans hfill.inp,
        ?_, ?_⟩, ?_⟩
      · rw [hu.mem]
        exact Memory.nibbles_write hfill.nibbles (AluOp.result_lt ..)
      · intro other hother
        rw [hu.mem, Memory.read_write_of_ne _ _ (by unfold Var.cell; omega)]
        exact hfill.same other (by omega)
      · rw [show v.cells - i = v.cells - (i + 1) + 1 by omega, Memory.number_succ_left,
          Memory.number_succ_left, hupper, hlow, hcarry, Var.cell, hread]
        rw [Nat.add_assoc v.addr i 1, ← hnum]
        omega)
  simp only [Nat.add_zero, Nat.sub_zero] at hfill hnum
  refine ⟨t, ?_, hfill.bank, hfill.mem_eq hv ?_, hfill.out, hfill.inp⟩
  · rw [shiftRight_eq, State.performAll_cons, State.perform_carry]
    exact hst
  · have hlt := s.mem.get_lt hm v
    have hc := t.flags.carry.toNat_le
    rw [Nat.mod_eq_of_lt (by omega), Memory.get]
    omega

end Code

end NibblePascal
