import NibblePascal.Proofs.Fragments.Product
import NibblePascal.Proofs.Fragments.Quotient
import NibblePascal.Proofs.Generation.Labels
import NibblePascal.Proofs.Machine.Stretch
import NibblePascal.Proofs.Simulation.Statement

/-!
# Arithmetic as generated

The generator takes two temporaries and some labels for a product or a quotient and puts the
fragment into the code.  Whatever image that code is part of, it computes the product modulo the
width in every case, and the quotient or the remainder in every case but a divisor of zero, with
which it never ends.  The operators of the arithmetic unit go from cell to cell and need neither
temporaries nor labels, and so do the steps that change a scalar in place.  Of these, one up and one
down undo each other, and a shift to the right undoes one to the left but for the highest bit.
-/

namespace NibblePascal

/-- What an operation works on: the operands `x` and `y`, the result `z`, and two temporaries that
have no cell in common with these, all of one width and in bank 0. -/
structure Operands (x y z a b : Var) : Prop where
  placed : ∀ v ∈ [x, y, z, a, b], v.Placed
  width : ∀ v ∈ [y, z, a, b], v.width = x.width
  fresh : ∀ v ∈ [x, y, z], v.Apart a ∧ v.Apart b
  apart : a.Apart b

namespace Operands

variable {x y z a b : Var} (h : Operands x y z a b)

include h

theorem cells {v : Var} (hv : v ∈ [y, z, a, b]) : v.cells = x.cells :=
  congrArg Width.cells (h.width v hv)

theorem productParts : Code.ProductParts z a b where
  placed_z := h.placed z (by simp)
  placed_a := h.placed a (by simp)
  placed_b := h.placed b (by simp)
  cells_a := (h.cells (by simp)).trans (h.cells (by simp)).symm
  cells_b := (h.cells (by simp)).trans (h.cells (by simp)).symm
  za := (h.fresh z (by simp)).1
  zb := (h.fresh z (by simp)).2
  ab := h.apart

theorem reduceParts (hyz : y.Apart z) : Code.ReduceParts y z a b where
  placed_r := h.placed a (by simp)
  placed_w := h.placed b (by simp)
  cells_w := (h.cells (by simp)).trans (h.cells (by simp)).symm
  wr := h.apart.symm
  placed_y := h.placed y (by simp)
  placed_q := h.placed z (by simp)
  cells_y := (h.cells (by simp)).trans (h.cells (by simp)).symm
  cells_q := (h.cells (by simp)).trans (h.cells (by simp)).symm
  yq := hyz
  yr := (h.fresh y (by simp)).1
  yw := (h.fresh y (by simp)).2
  qr := (h.fresh z (by simp)).1
  qw := (h.fresh z (by simp)).2

end Operands

/-! ### What is generated -/

namespace Gen

variable {g : Generator}

/-- A fragment that works with two temporaries and with labels of its own. -/
theorem fragment_run {w : Width} {a b : Var} {s₁ s₂ : Stock} (ha : g.stock.Takes w a s₁)
    (hb : s₁.Takes w b s₂) (title : Line) (count : Nat) (code : Var → Var → Nat → List Line) :
    (do
      emit [title]
      let a ← temp w
      let b ← temp w
      let n ← newLabels count
      emit (code a b n)
      recycle a
      recycle b : Gen Unit) g =
    .ok () (g.grow (title :: code a b s₂.labels) (((s₂.skip count).release a).release b)) := by
  rw [← g.grow_stock, bind_run (emit_run ..), bind_run (temp_run ha), bind_run (temp_run hb),
    bind_run (newLabels_run ..), bind_run (emit_run ..), bind_run (recycle_run ..), recycle_run]
  rfl

variable {x y z a b : Var} {s₁ s₂ : Stock}

/-- The code for a product.  It stays folded: `Holds` would be computed along it. -/
@[irreducible] def productLines (x y z a b : Var) (n : Nat) : List Line :=
  Code.comment (z.name ++ " = " ++ x.name ++ " * " ++ y.name) :: Code.product x y z a b n

theorem multiply_run (ha : g.stock.Takes x.width a s₁) (hb : s₁.Takes x.width b s₂) :
    multiply x y z g = .ok () (g.grow (productLines x y z a b s₂.labels)
      (((s₂.skip Code.productLabels).release a).release b)) := by
  rw [productLines]
  exact fragment_run ha hb _ _ (Code.product x y z)

/-- The code for a quotient or a remainder. -/
def quotientLines (x y q a b : Var) (remainder : Bool) (n : Nat) : List Line :=
  Code.comment (q.name ++ " = " ++ x.name ++ " " ++ (if remainder then "%" else "/")
    ++ " " ++ y.name) :: Code.quotient x y q a b remainder n

theorem divide_run (remainder : Bool) (ha : g.stock.Takes x.width a s₁)
    (hb : s₁.Takes x.width b s₂) :
    divide x y z remainder g = .ok () (g.grow (quotientLines x y z a b remainder s₂.labels)
      (((s₂.skip Code.quotientLabels).release a).release b)) :=
  fragment_run ha hb _ _ fun a b => Code.quotient x y z a b remainder

end Gen

/-! ### What the code does -/

namespace Gen

variable {x y z a b : Var} (h : Operands x y z a b) {image : Image} {ρ : String → Nat} {s : State}
  {n : Nat} {remainder : Bool}

include h

theorem turns_productLines {m : Memory} (hm : m.Nibbles) :
    ∃ m', image.Turns ρ (productLines x y z a b n) m m'
      ∧ m'.get z = m.get x * m.get y % 16 ^ z.cells ∧ m.SameOff [z, a, b] m' := by
  obtain ⟨m', hturns, -, hsame, hz⟩ := Code.turns_product (n := n) image ρ h.productParts hm
    (h.placed x (by simp)) (h.placed y (by simp)) (h.cells (by simp)).symm
    ((h.cells (by simp)).trans (h.cells (by simp)).symm) (h.fresh x (by simp)).1
    (h.fresh y (by simp)).1 (h.fresh y (by simp)).2
  rw [productLines]
  exact ⟨m', hturns.comment _, hz, hsame⟩

theorem completes_productLines (hold : image.Holds ρ s.pc (productLines x y z a b n))
    (hbank : s.bank = 0) (hm : s.mem.Nibbles) :
    ∃ t, image.Completes (productLines x y z a b n) s t ∧ t.bank = 0
      ∧ t.mem.get z = s.mem.get x * s.mem.get y % 16 ^ z.cells ∧ s.mem.SameOff [z, a, b] t.mem := by
  obtain ⟨m, hturns, hz, hsame⟩ := turns_productLines h hm
  obtain ⟨t, ht, hbank', rfl, -, -⟩ := Image.Completes.of_turns hturns hold hbank
  exact ⟨t, ht, hbank', hz, hsame⟩

theorem completes_quotientLines (hyz : y.Apart z)
    (hold : image.Holds ρ s.pc (quotientLines x y z a b remainder n)) (hbank : s.bank = 0)
    (hm : s.mem.Nibbles) (hy : s.mem.get y ≠ 0) :
    ∃ t, image.Completes (quotientLines x y z a b remainder n) s t ∧ t.bank = 0
      ∧ t.mem.get z = (if remainder then s.mem.get x % s.mem.get y else s.mem.get x / s.mem.get y)
      ∧ s.mem.SameOff [z, a, b] t.mem := by
  obtain ⟨m, hturns, -, hsame, hz⟩ := Code.turns_quotient (image.alone s.pc _) ρ
    (h.reduceParts hyz) hm (h.placed x (by simp)) (h.cells (by simp)).symm (h.fresh x (by simp)).1
    remainder hy
  obtain ⟨t, ht, hbank', rfl, -, -⟩ := Image.Completes.of_turns (hturns.comment _) hold hbank
  exact ⟨t, ht, hbank', hz, hsame⟩

theorem spins_quotientLines (hyz : y.Apart z)
    (hold : image.Holds ρ s.pc (quotientLines x y z a b remainder n)) (hbank : s.bank = 0)
    (hm : s.mem.Nibbles) (hy : s.mem.get y = 0) :
    image.Spins (quotientLines x y z a b remainder n) s :=
  .of_lasts (fun k => Code.lasts_quotient (h.reduceParts hyz) hm (h.placed x (by simp))
    (h.cells (by simp)).symm (h.fresh x (by simp)).1 remainder hy hold.alone k) hbank

end Gen

variable {g : Generator} {x y z a b : Var} {s₁ s₂ : Stock}

/-- The code that is generated for a product leads to its end from every state, with the product
modulo the width in the result.  The result may have cells in common with the operands. -/
theorem multiplication_exact (ha : g.stock.Takes x.width a s₁) (hb : s₁.Takes x.width b s₂)
    (h : Operands x y z a b) :
    ∃ lines g', Gen.multiply x y z g = .ok () g' ∧ g'.code.lines = g.code.lines ++ lines
      ∧ Image.Closed lines
      ∧ ∀ (image : Image) (ρ : String → Nat) (s : State), image.Holds ρ s.pc lines → s.bank = 0 →
        s.mem.Nibbles → ∃ t, image.Completes lines s t ∧ t.bank = 0
          ∧ t.mem.get z = s.mem.get x * s.mem.get y % 2 ^ (4 * z.cells)
          ∧ s.mem.SameOff [z, a, b] t.mem := by
  refine ⟨_, _, Gen.multiply_run ha hb, g.lines_grow _ _, ?_, fun image ρ s hold hbank hm => ?_⟩
  · rw [Gen.productLines, ← List.singleton_append]
    exact (Labelled.straight_append (by simp) (Code.labelled_product _)).isClosed
  · rw [pow_mul]
    exact Gen.completes_productLines h hold hbank hm

/-- The product of two words in place of the first one. -/
theorem multiplication_exact_in_place :
    let x : Var := ⟨"x", .word, 0, "", false⟩
    let y : Var := ⟨"y", .word, 4, "", false⟩
    let a : Var := ⟨"$SYS0", .word, 8, "", true⟩
    let b : Var := ⟨"$SYS1", .word, 12, "", true⟩
    let g : Generator := { memory := { free := 16, pools := { words := [a, b] } } }
    ∃ s₁ s₂, g.stock.Takes x.width a s₁ ∧ s₁.Takes x.width b s₂ ∧ Operands x y x a b
      ∧ ∃ lines g', Gen.multiply x y x g = .ok () g' ∧ g'.code.lines = g.code.lines ++ lines
        ∧ Image.Closed lines
        ∧ ∀ (image : Image) (ρ : String → Nat) (s : State), image.Holds ρ s.pc lines → s.bank = 0 →
          s.mem.Nibbles → ∃ t, image.Completes lines s t ∧ t.bank = 0
            ∧ t.mem.get x = s.mem.get x * s.mem.get y % 2 ^ (4 * x.cells)
            ∧ s.mem.SameOff [x, a, b] t.mem := by
  intro x y a b g
  have h : Operands x y x a b :=
    ⟨by simp [Var.Placed, x, y, a, b]; decide, by simp [x, y, a, b],
      by simp [Var.Apart, x, y, a, b]; decide, by simp [Var.Apart, a, b]; decide⟩
  let s₁ : Stock := ⟨{ free := 16, pools := { words := [b] } }, 0⟩
  have ha : g.stock.Takes x.width a s₁ := ⟨_, rfl, rfl⟩
  have hb : s₁.Takes x.width b ⟨{ free := 16 }, 0⟩ := ⟨_, rfl, rfl⟩
  exact ⟨_, _, ha, hb, h, multiplication_exact ha hb h⟩

/-- The code that is generated for a quotient or a remainder leads to its end exactly if the divisor
is not zero, and then the result is right.  The result may have cells in common with the
dividend. -/
theorem division_exact (ha : g.stock.Takes x.width a s₁) (hb : s₁.Takes x.width b s₂)
    (h : Operands x y z a b) (hyz : y.Apart z) (remainder : Bool) :
    ∃ lines g', Gen.divide x y z remainder g = .ok () g' ∧ g'.code.lines = g.code.lines ++ lines
      ∧ Image.Closed lines
      ∧ ∀ (image : Image) (ρ : String → Nat) (s : State), image.Holds ρ s.pc lines → s.bank = 0 →
        s.mem.Nibbles →
        ((∃ t, image.Completes lines s t) ↔ s.mem.get y ≠ 0)
          ∧ (s.mem.get y = 0 → image.Spins lines s)
          ∧ ∀ t, image.Completes lines s t → t.bank = 0
            ∧ t.mem.get z = (if remainder then s.mem.get x % s.mem.get y
              else s.mem.get x / s.mem.get y)
            ∧ t.mem.get y = s.mem.get y ∧ s.mem.SameOff [z, a, b] t.mem := by
  refine ⟨_, _, Gen.divide_run remainder ha hb, g.lines_grow _ _, ?_,
    fun image ρ s hold hbank hm => ?_⟩
  · rw [Gen.quotientLines, ← List.singleton_append]
    exact (Labelled.straight_append (by simp) (Code.labelled_quotient _)).isClosed
  have hspins := Gen.spins_quotientLines h hyz hold hbank hm
  have hends := Gen.completes_quotientLines h hyz hold hbank hm
  refine ⟨⟨?_, fun hne => ?_⟩, hspins, fun t ht => ?_⟩
  · rintro ⟨t, ht⟩ hzero
    exact (hspins hzero).not_completes ht
  · obtain ⟨t, ht, -⟩ := hends hne
    exact ⟨t, ht⟩
  · have hne : s.mem.get y ≠ 0 := fun hzero => (hspins hzero).not_completes ht
    obtain ⟨u, hu, hbank', hresult, hsame⟩ := hends hne
    obtain rfl := ht.unique hu
    refine ⟨hbank', hresult, hsame.get_eq fun v hv => ?_, hsame⟩
    have hfresh := h.fresh y (by simp)
    rcases List.mem_cons.1 hv with rfl | hv
    · exact hyz
    · rcases List.mem_pair.1 hv with rfl | rfl
      · exact hfresh.1
      · exact hfresh.2

/-- The remainder of two bytes in place of the dividend. -/
theorem division_exact_in_place :
    let x : Var := ⟨"x", .byte, 0, "", false⟩
    let y : Var := ⟨"y", .byte, 2, "", false⟩
    let a : Var := ⟨"$SYS0", .byte, 4, "", true⟩
    let b : Var := ⟨"$SYS1", .byte, 6, "", true⟩
    let g : Generator := { memory := { free := 8, pools := { bytes := [a, b] } } }
    ∃ s₁ s₂, g.stock.Takes x.width a s₁ ∧ s₁.Takes x.width b s₂ ∧ Operands x y x a b ∧ y.Apart x
      ∧ ∃ lines g', Gen.divide x y x true g = .ok () g' ∧ g'.code.lines = g.code.lines ++ lines
        ∧ Image.Closed lines
        ∧ ∀ (image : Image) (ρ : String → Nat) (s : State), image.Holds ρ s.pc lines → s.bank = 0 →
          s.mem.Nibbles →
          ((∃ t, image.Completes lines s t) ↔ s.mem.get y ≠ 0)
            ∧ (s.mem.get y = 0 → image.Spins lines s)
            ∧ ∀ t, image.Completes lines s t → t.bank = 0
              ∧ t.mem.get x = (if true then s.mem.get x % s.mem.get y
                else s.mem.get x / s.mem.get y)
              ∧ t.mem.get y = s.mem.get y ∧ s.mem.SameOff [x, a, b] t.mem := by
  intro x y a b g
  have h : Operands x y x a b :=
    ⟨by simp [Var.Placed, x, y, a, b]; decide, by simp [x, y, a, b],
      by simp [Var.Apart, x, y, a, b]; decide, by simp [Var.Apart, a, b]; decide⟩
  have hyx : y.Apart x := .inr (by simp [x, y]; decide)
  let s₁ : Stock := ⟨{ free := 8, pools := { bytes := [b] } }, 0⟩
  have ha : g.stock.Takes x.width a s₁ := ⟨_, rfl, rfl⟩
  have hb : s₁.Takes x.width b ⟨{ free := 8 }, 0⟩ := ⟨_, rfl, rfl⟩
  exact ⟨_, _, ha, hb, h, hyx, division_exact ha hb h hyx true⟩

/-! ### Operators of the arithmetic unit -/

theorem Gen.operate_run {op : BinaryOp} {alu : AluOp} (h : op.alu? = some alu) (g : Generator)
    (x y z : Var) : Gen.operate op x y z g = .ok () (g.grow (Code.combine alu x y z) g.stock) := by
  cases op <;> cases h <;> exact Gen.emit_run g [] _ g.stock

/-- The code that is generated for an operator of the arithmetic unit leads to its end from every
state, whatever is in the registers and the flags, with the result modulo the width and with all
other cells as they were.  The result may take the place of either operand. -/
theorem combination_exact {op : BinaryOp} {alu : AluOp} (hop : op.alu? = some alu)
    (hx : x.Placed) (hy : y.Placed) (hz : z.Placed) (hxy : y.width = x.width)
    (hxz : z.width = x.width) (hclearx : x.Clear z) (hcleary : y.Clear z) :
    ∃ lines g', Gen.operate op x y z g = .ok () g' ∧ g'.code.lines = g.code.lines ++ lines
      ∧ ∀ (image : Image) (ρ : String → Nat) (s : State), image.Holds ρ s.pc lines → s.bank = 0 →
        s.mem.Nibbles → ∃ t, image.Completes lines s t ∧ t.bank = 0
          ∧ op.apply (2 ^ (4 * z.cells)) (s.mem.get x) (s.mem.get y) = some (t.mem.get z)
          ∧ s.mem.SameOff [z] t.mem ∧ t.out = s.out ∧ t.inp = s.inp := by
  refine ⟨_, _, Gen.operate_run hop g x y z, g.lines_grow _ _, fun image ρ s hold hbank hm => ?_⟩
  have hcellsx : x.cells = z.cells := congrArg Width.cells hxz.symm
  have hcellsy : y.cells = z.cells := congrArg Width.cells (hxy.trans hxz.symm)
  have hltx : s.mem.get x < 16 ^ z.cells := hcellsx ▸ Memory.get_lt hm x
  have hlty : s.mem.get y < 16 ^ z.cells := hcellsy ▸ Memory.get_lt hm y
  obtain ⟨hshr, hshl, happly⟩ := BinaryOp.apply_of_alu hop hltx hlty
    ⟨4 * z.cells, (pow_mul 2 4 z.cells).symm⟩
  obtain ⟨t, hperform, hbank', hmem, hout, hinp⟩ := Code.transforms_combine alu hm hx hy hz
    (hcellsx.trans hcellsy.symm) hcellsx hclearx hcleary hshr hshl s hbank rfl
  refine ⟨_, .of_performAll hold hperform, hbank', ?_, ?_, hout, hinp⟩
  · rw [pow_mul, show (2 : Nat) ^ 4 = 16 from rfl, happly, hmem, Memory.get_set_same hz]
  · rw [hmem]
    exact Memory.sameOff_set (List.mem_singleton_self z) _ _

/-- Subtraction of words in place of the subtrahend. -/
theorem combination_exact_in_place :
    let x : Var := ⟨"x", .word, 0, "", false⟩
    let y : Var := ⟨"y", .word, 4, "", false⟩
    let g : Generator := {}
    BinaryOp.sub.alu? = some .sub ∧ x.Placed ∧ y.Placed ∧ y.width = x.width ∧ x.Clear y
      ∧ y.Clear y
      ∧ ∃ lines g', Gen.operate .sub x y y g = .ok () g' ∧ g'.code.lines = g.code.lines ++ lines
        ∧ ∀ (image : Image) (ρ : String → Nat) (s : State), image.Holds ρ s.pc lines → s.bank = 0 →
          s.mem.Nibbles → ∃ t, image.Completes lines s t ∧ t.bank = 0
            ∧ BinaryOp.sub.apply (2 ^ (4 * y.cells)) (s.mem.get x) (s.mem.get y)
              = some (t.mem.get y)
            ∧ s.mem.SameOff [y] t.mem ∧ t.out = s.out ∧ t.inp = s.inp := by
  intro x y g
  have hx : x.Placed := by simp [Var.Placed, x]; decide
  have hy : y.Placed := by simp [Var.Placed, y]; decide
  have hclear : x.Clear y := .inr (.inl (by decide))
  exact ⟨rfl, hx, hy, rfl, hclear, .inl rfl,
    combination_exact rfl hx hy hy rfl rfl hclear (.inl rfl)⟩

/-! ### Steps in place -/

theorem Memory.set_get_same {m : Memory} (hm : m.Nibbles) {v : Var} (hv : v.Placed) :
    m.set v (m.get v) = m :=
  (eq_writeNumber (Var.fits hv) hm (fun _ _ => rfl) (Nat.mod_eq_of_lt (get_lt hm v)).symm).symm

namespace StepOp

variable {limit n : Nat}

/-- The number that a scalar holds after some steps. -/
def applyAll (ops : List StepOp) (limit n : Nat) : Nat := ops.foldl (fun n op => op.apply limit n) n

theorem applyAll_lt (ops : List StepOp) (h : n < limit) : applyAll ops limit n < limit := by
  induction ops generalizing n with
  | nil => exact h
  | cons op ops ih => exact ih (op.apply_lt h)

/-- A step up after a step down. -/
theorem inc_dec (h : n < limit) : inc.apply limit (dec.apply limit n) = n := by
  simp only [apply]
  rw [Nat.mod_add_mod, show n + limit - 1 + 1 = n + limit by omega, Nat.add_mod_right,
    Nat.mod_eq_of_lt h]

/-- A step down after a step up. -/
theorem dec_inc (h : n < limit) : dec.apply limit (inc.apply limit n) = n := by
  simp only [apply]
  rw [Nat.add_sub_assoc (by omega), Nat.mod_add_mod, show n + 1 + (limit - 1) = n + limit by omega,
    Nat.add_mod_right, Nat.mod_eq_of_lt h]

/-- A shift to the right after a shift to the left. -/
theorem shr_shl (half n : Nat) : shr.apply (2 * half) (shl.apply (2 * half) n) = n % half := by
  simp only [apply]
  rw [Nat.mul_mod_mul_left, Nat.mul_div_cancel_left _ (by decide)]

end StepOp

/-- Steps one after the other. -/
theorem transforms_stepOps (ops : List StepOp) {m : Memory} (hm : m.Nibbles) {v : Var}
    (hv : v.Placed) : Transforms (ops.flatMap (·.code v)) m
      (m.set v (StepOp.applyAll ops v.width.limit (m.get v))) := by
  induction ops generalizing m with
  | nil =>
    rw [StepOp.applyAll, List.foldl_nil, Memory.set_get_same hm hv]
    exact .nil m
  | cons op ops ih =>
    have hlt : op.apply v.width.limit (m.get v) < 16 ^ v.cells := op.apply_lt (Memory.get_lt hm v)
    have hrest := ih (Memory.nibbles_set (v := v) (x := op.apply v.width.limit (m.get v)) hm)
    rw [Memory.get_set_same hv, Nat.mod_eq_of_lt hlt, Memory.set_set hm hv] at hrest
    exact (transforms_stepOp op hm hv).append hrest

/-- From every state at the head of the lines, the run comes to their end, with `f n` in the scalar
where `n` was, and with all other cells as they were. -/
def Var.ChangedBy (v : Var) (lines : List Line) (f : Nat → Nat) : Prop :=
  ∀ (image : Image) (ρ : String → Nat) (s : State), image.AtHead ρ lines s →
    ∃ t, image.Completes lines s t ∧ t.bank = 0 ∧ t.mem.get v = f (s.mem.get v)
      ∧ s.mem.SameOff [v] t.mem ∧ t.out = s.out ∧ t.inp = s.inp

theorem Var.changedBy_stepOps {v : Var} (hv : v.Placed) (ops : List StepOp) {f : Nat → Nat}
    (hf : ∀ n < 2 ^ (4 * v.cells), StepOp.applyAll ops (2 ^ (4 * v.cells)) n = f n) :
    v.ChangedBy (ops.flatMap (·.code v)) f := by
  rintro image ρ s ⟨hold, hbank, hm⟩
  have hlimit : v.width.limit = 2 ^ (4 * v.cells) := (pow_mul 2 4 v.cells).symm
  have hlt : s.mem.get v < v.width.limit := Memory.get_lt hm v
  obtain ⟨t, hperform, hbank', hmem, hout, hinp⟩ := transforms_stepOps ops hm hv s hbank rfl
  refine ⟨_, .of_performAll hold hperform, hbank', ?_, ?_, hout, hinp⟩
  · rw [hmem, Memory.get_set_same hv, ← hf _ (hlimit ▸ hlt), ← hlimit]
    exact Nat.mod_eq_of_lt (StepOp.applyAll_lt ops hlt)
  · rw [hmem]
    exact Memory.sameOff_set (List.mem_singleton_self v) _ _

/-- The code of the steps in place adds or subtracts one, doubles or halves, modulo the width and
whatever is in the registers and the flags, and changes no other cell.  So a step up and a step down
undo each other in either order, and a shift to the left and back clears the highest bit. -/
theorem steps_exact {v : Var} (hv : v.Placed) :
    v.ChangedBy (StepOp.inc.code v) (fun n => (n + 1) % 2 ^ (4 * v.cells))
    ∧ v.ChangedBy (StepOp.dec.code v) (fun n => (n + 2 ^ (4 * v.cells) - 1) % 2 ^ (4 * v.cells))
    ∧ v.ChangedBy (StepOp.shl.code v) (fun n => 2 * n % 2 ^ (4 * v.cells))
    ∧ v.ChangedBy (StepOp.shr.code v) (fun n => n / 2)
    ∧ v.ChangedBy (StepOp.dec.code v ++ StepOp.inc.code v) (fun n => n)
    ∧ v.ChangedBy (StepOp.inc.code v ++ StepOp.dec.code v) (fun n => n)
    ∧ v.ChangedBy (StepOp.shl.code v ++ StepOp.shr.code v)
      (fun n => n % 2 ^ (4 * v.cells - 1)) := by
  have hone (op : StepOp) : v.ChangedBy (op.code v) (op.apply (2 ^ (4 * v.cells))) := by
    have := v.changedBy_stepOps hv [op] fun n _ => rfl
    rwa [List.flatMap_singleton] at this
  have htwo (op other : StepOp) {f : Nat → Nat} (hf : ∀ n < 2 ^ (4 * v.cells),
      other.apply (2 ^ (4 * v.cells)) (op.apply (2 ^ (4 * v.cells)) n) = f n) :
      v.ChangedBy (op.code v ++ other.code v) f := by
    have := v.changedBy_stepOps hv [op, other] hf
    rwa [List.flatMap_cons, List.flatMap_singleton] at this
  have hhalf : 2 ^ (4 * v.cells) = 2 * 2 ^ (4 * v.cells - 1) := by
    have := v.cells_pos
    rw [← pow_succ', Nat.sub_add_cancel (by omega)]
  refine ⟨hone .inc, hone .dec, hone .shl, hone .shr, htwo .dec .inc fun n => StepOp.inc_dec,
    htwo .inc .dec fun n => StepOp.dec_inc, htwo .shl .shr fun n _ => ?_⟩
  rw [hhalf]
  exact StepOp.shr_shl _ n

/-- A word at the end of the cells for scalars. -/
theorem steps_exact_of_last_word :
    let v : Var := ⟨"w", .word, 4092, "", false⟩
    v.Placed ∧ v.ChangedBy (StepOp.inc.code v) (fun n => (n + 1) % 0x10000)
      ∧ v.ChangedBy (StepOp.dec.code v) (fun n => (n + 0x10000 - 1) % 0x10000)
      ∧ v.ChangedBy (StepOp.shl.code v) (fun n => 2 * n % 0x10000)
      ∧ v.ChangedBy (StepOp.shr.code v) (fun n => n / 2)
      ∧ v.ChangedBy (StepOp.dec.code v ++ StepOp.inc.code v) (fun n => n)
      ∧ v.ChangedBy (StepOp.inc.code v ++ StepOp.dec.code v) (fun n => n)
      ∧ v.ChangedBy (StepOp.shl.code v ++ StepOp.shr.code v) (fun n => n % 0x8000) := by
  intro v
  have hv : v.Placed := by simp [Var.Placed, v]; decide
  exact ⟨hv, steps_exact hv⟩

end NibblePascal
