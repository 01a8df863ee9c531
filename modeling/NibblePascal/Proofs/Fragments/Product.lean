import NibblePascal.Code.Product
import NibblePascal.Proofs.Fragments.Arithmetic
import NibblePascal.Proofs.Fragments.Test

/-!
# Products

The loop of `Code.product` keeps `z + a * b` modulo the width and halves `b`, so it ends with
the product of what `a` and `b` held before (`turns_product`).
-/

namespace NibblePascal.Code

variable {image : Image} {ρ : String → Nat} {p : Point} {x y z a b : Var} {n : Nat}

theorem whileNonzero_nibble {done body : Nat} (h : b.width = .nibble) :
    whileNonzero b done body =
      [loadImm 0, toLow, carry 0, load b.addr, cmp] ++ [jump .jz (labelName done)] := by
  simp [whileNonzero, h, Var.cell]

theorem whileNonzero_wide {done body : Nat} (h : b.width ≠ .nibble) :
    whileNonzero b done body = [loadImm 0, toLow, carry 0] ++
      ((b.cellList.flatMap fun addr => [load addr, cmp, jump .ja (labelName body)]) ++
        [jump .jmp (labelName done), label body]) := by
  unfold whileNonzero
  split
  · exact absurd ‹_› h
  · rfl

/-- The head of the loop leaves it if `b` is zero. -/
theorem leads_whileNonzero {done body : Nat} (hm : p.mem.Nibbles) (hb : b.Placed)
    (hold : image.Holds ρ p.pc (whileNonzero b done body)) :
    image.Leads p { p with
      pc := if p.mem.get b = 0 then ρ (labelName done)
        else p.pc + codeSize (whileNonzero b done body) } := by
  rw [Image.leads_iff]
  rintro s hbank rfl
  show image.Arrives s { s.point with pc := if s.mem.get b = 0 then _ else s.pc + _ }
  by_cases hw : b.width = .nibble
  · rw [whileNonzero_nibble hw] at hold ⊢
    obtain ⟨hstart, hjz, -⟩ := (Image.holds_append ..).1 hold
    have haddr : b.addr < 4096 := Var.cell_lt hb b.cells_pos
    have hdigit : s.mem.read b.addr < 16 := hm _
    have hget : s.mem.get b = s.mem.read b.addr := by
      rw [Memory.get, Var.cells, hw, Width.cells, Memory.number_one]
    let t : State := { s with acc := s.mem.read b.addr, bl := 0,
                              flags := .ofDigits (s.mem.read b.addr) 0 }
    have hst : s.performAll [loadImm 0, toLow, carry 0, load b.addr, cmp] = some t := by
      simp [hbank, haddr, t, Flags.compare, Flags.ofDigits, Nat.mod_eq_of_lt hdigit]
    refine .of_performAll hstart hst ?_
    by_cases hzero : s.mem.get b = 0
    · rw [if_pos hzero]
      refine .of_taken hjz ?_ (.here ⟨rfl, hbank, rfl, rfl, rfl⟩)
      simp [t, ← hget, hzero]
    · rw [if_neg hzero]
      refine .of_passed hjz ?_ (.here ⟨rfl, hbank, rfl, rfl, rfl⟩)
      simp [t, ← hget, hzero]
  · rw [whileNonzero_wide hw] at hold ⊢
    obtain ⟨hstart, hrest⟩ := (Image.holds_append ..).1 hold
    obtain ⟨hscan, hjmp, hbody, -⟩ := (Image.holds_append ..).1 hrest
    let t : State := { s with acc := 0, bl := 0, flags := { s.flags with carry := false } }
    refine .of_performAll hstart (t := t) (by simp [t]) ?_
    have harrives := arrives_scan (s := { t with pc := s.pc + 3 }) hm hbank rfl rfl
      (cellList_lt hb) get_eq_zero_iff rfl hscan
    refine harrives.leads ?_
    show image.Leads { s.point with pc := if s.mem.get b = 0 then _ else ρ (labelName body) } _
    by_cases hzero : s.mem.get b = 0
    · rw [if_pos hzero, if_pos hzero]
      exact (Image.advances_jump (p := { s.point with pc := _ }) hjmp).leads
    · rw [if_neg hzero, if_neg hzero, hbody, codeSize_append, codeSize_append, ← Nat.add_assoc,
        ← Nat.add_assoc]
      exact .refl _

/-! ### The loop -/

/-- What the loop of a product works on: scalars of one width, each with its own cells. -/
structure ProductParts (z a b : Var) : Prop where
  placed_z : z.Placed
  placed_a : a.Placed
  placed_b : b.Placed
  cells_a : a.cells = z.cells
  cells_b : b.cells = z.cells
  za : z.Apart a
  zb : z.Apart b
  ab : a.Apart b

/-- The second half of the body: `a` is doubled and `b` is halved. -/
def productShifts (a b : Var) : List Line :=
  [comment "a := 2 * a;"] ++ shiftLeft a ++ [comment "b := b / 2;"] ++ shiftRight b

/-- The body of the loop up to the jump back. -/
def productBody (z a b : Var) (n : Nat) : List Line :=
  comment "IF ODD b THEN" :: ([loadImm 1, toLow, load (b.cell 0), alu .and]
    ++ jump .jz (labelName (n + 3)) :: comment "z := z + a;" :: (combine .add z a z
    ++ label (n + 3) :: productShifts a b))

/-- The memory after the first half of the body. -/
def productSum (z a b : Var) (m : Memory) : Memory :=
  if m.get b % 2 = 1 then m.set z (m.get z + m.get a) else m

/-- The memory after the second half of the body. -/
def productShifted (a b : Var) (m : Memory) : Memory := (m.set a (2 * m.get a)).set b (m.get b / 2)

section

variable {m : Memory} (h : ProductParts z a b)

include h

theorem turns_productShifts (hm : m.Nibbles) :
    image.Turns ρ (productShifts a b) m (productShifted a b m) := by
  have hright := transforms_shiftRight (Memory.nibbles_set (v := a) (x := 2 * m.get a) hm) h.placed_b
  rw [Memory.get_set_of_apart h.ab.symm] at hright
  have hleft : image.Turns ρ (shiftLeft a) m (m.set a (2 * m.get a)) :=
    .of_transforms (transforms_shiftLeft hm h.placed_a)
  exact ((hleft.comment _).append (Image.Turns.nil _ |>.comment _)).append (.of_transforms hright)

theorem turns_productBody (hm : m.Nibbles) :
    image.Turns ρ (productBody z a b n) m (productShifted a b (productSum z a b m)) := by
  refine Image.Turns.comment _ fun pc out inp hold => ?_
  rw [Image.leads_iff]
  rintro s hb hpoint
  obtain ⟨rfl, rfl, rfl, rfl⟩ := Point.mk.inj hpoint
  obtain ⟨hload, hjz, hrest⟩ := (Image.holds_append ..).1 hold
  obtain ⟨hsum, hlabel, hshifts⟩ := (Image.holds_append ..).1 hrest
  obtain ⟨t, hst, hsame, hzero⟩ := performAll_mask 1 (b.cell 0) hb hm
    (by decide) (Var.cell_lt h.placed_b b.cells_pos)
  rw [Nat.and_one_is_mod, Var.cell, Nat.add_zero, ← get_mod_two] at hzero
  refine .of_performAll hload hst ?_
  have hat : ∀ pc, ({ t with pc := pc } : State).At { s.point with pc := pc } := fun pc =>
    ⟨rfl, hsame.bank.trans hb, hsame.mem, hsame.out, hsame.inp⟩
  -- both ways lead to the label in the middle
  suffices hmid : image.Arrives
      { t with pc := s.pc + codeSize [loadImm 1, toLow, load (b.cell 0), alu .and] }
      { s.point with pc := ρ (labelName (n + 3)), mem := productSum z a b s.mem } by
    have hsumNibbles : (productSum z a b s.mem).Nibbles := by
      rw [productSum]
      split
      · exact Memory.nibbles_set hm
      · exact hm
    rw [hlabel] at hmid
    refine (hmid.leads (turns_productShifts h hsumNibbles _ _ _ hshifts)).at_pc ?_ rfl
    simp only [codeSize_append, codeSize_jump, codeSize_codeComment, codeSize_codeLabel]
    omega
  rw [productSum]
  by_cases hodd : s.mem.get b % 2 = 1
  · rw [if_pos hodd]
    refine .of_passed hjz (by simp [hzero, hodd]) ?_
    have hadd := transforms_combine .add hm h.placed_z h.placed_a h.placed_z h.cells_a.symm
      rfl (.refl z) h.za.symm.clear (by decide) (by decide)
    rw [hlabel]
    exact (Image.Arrives.here (hat _)).leads (Image.Turns.of_transforms hadd _ _ _ hsum)
  · rw [if_neg hodd]
    exact .of_taken hjz (by simp [hzero]; omega) (.here (hat _))

theorem get_productTurn (hm : m.Nibbles) :
    let m' := productShifted a b (productSum z a b m)
    m'.get b = m.get b / 2 ∧ m'.get a = 2 * m.get a % 16 ^ z.cells ∧
      m'.get z = (m.get z + m.get b % 2 * m.get a) % 16 ^ z.cells := by
  have hb : (productSum z a b m).get b = m.get b := by
    unfold productSum
    split
    · exact Memory.get_set_of_apart h.zb.symm
    · rfl
  have ha : (productSum z a b m).get a = m.get a := by
    unfold productSum
    split
    · exact Memory.get_set_of_apart h.za.symm
    · rfl
  have hz : (productSum z a b m).get z = (m.get z + m.get b % 2 * m.get a) % 16 ^ z.cells := by
    unfold productSum
    split
    · rename_i hodd
      rw [Memory.get_set_same h.placed_z, hodd, Nat.one_mul]
    · rename_i heven
      rw [show m.get b % 2 = 0 by omega, Nat.zero_mul, Nat.add_zero,
        Nat.mod_eq_of_lt (Memory.get_lt hm z)]
  refine ⟨?_, ?_, ?_⟩
  · have hlt := Memory.get_lt hm b
    rw [productShifted, Memory.get_set_same h.placed_b, hb, Nat.mod_eq_of_lt (by omega)]
  · rw [productShifted, Memory.get_set_of_apart h.ab, Memory.get_set_same h.placed_a, ha, h.cells_a]
  · rw [productShifted, Memory.get_set_of_apart h.zb, Memory.get_set_of_apart h.za, hz]

end

theorem nibbles_productTurn {m : Memory} (hm : m.Nibbles) :
    (productShifted a b (productSum z a b m)).Nibbles := by
  have hsum : (productSum z a b m).Nibbles := by
    unfold productSum
    split
    · exact Memory.nibbles_set hm
    · exact hm
  exact Memory.nibbles_set (Memory.nibbles_set hsum)

theorem sameOff_productTurn (m : Memory) : m.SameOff [z, a, b] (productShifted a b (productSum z a b m)) := by
  have hsum : m.SameOff [z, a, b] (productSum z a b m) := by
    unfold productSum
    split
    · exact Memory.sameOff_set (by simp) _ _
    · exact .refl _ _
  exact (hsum.trans (Memory.sameOff_set (by simp) _ _)).trans (Memory.sameOff_set (by simp) _ _)

/-- One turn of the loop keeps `z + a * b`. -/
theorem product_invariant (w z a b : Nat) :
    ((z + b % 2 * a) % w + 2 * a % w * (b / 2)) % w = (z + a * b) % w := by
  have hb : a * b = a * (2 * (b / 2) + b % 2) := by rw [Nat.div_add_mod]
  calc ((z + b % 2 * a) % w + 2 * a % w * (b / 2)) % w
      = (z + b % 2 * a + 2 * a * (b / 2)) % w := by
        rw [Nat.add_mod, Nat.mod_mod, Nat.mod_mul_mod, ← Nat.add_mod]
    _ = (z + a * b) % w := by
        rw [hb]
        ring_nf

/-- The loop of a product, from the label at its head to the label behind it. -/
def productLoop (z a b : Var) (n : Nat) : List Line :=
  label n :: (whileNonzero b (n + 1) (n + 2) ++ (productBody z a b n ++
    [jump .jmp (labelName n), label (n + 1)]))

variable (image ρ) in
theorem turns_productLoop {m : Memory} (h : ProductParts z a b) (hm : m.Nibbles) :
    ∃ m', image.Turns ρ (productLoop z a b n) m m' ∧ m'.Nibbles ∧ m.SameOff [z, a, b] m' ∧
      m'.get z = (m.get z + m.get a * m.get b) % 16 ^ z.cells := by
  -- the induction is on `b`, which every turn halves
  induction hk : m.get b using Nat.strong_induction_on generalizing m with
  | _ k ih =>
    subst hk
    by_cases hzero : m.get b = 0
    · refine ⟨m, ?_, hm, .refl _ _, ?_⟩
      · intro pc out inp hold
        obtain ⟨hpc, hrest⟩ := hold
        obtain ⟨hhead, hrest⟩ := (Image.holds_append ..).1 hrest
        obtain ⟨-, -, hend, -⟩ := (Image.holds_append ..).1 hrest
        have hlead := leads_whileNonzero (p := ⟨pc, m, out, inp⟩) hm h.placed_b hhead
        rw [if_pos hzero, hend] at hlead
        refine hlead.at_pc ?_ rfl
        simp only [productLoop, codeSize_append, codeSize_codeLabel, codeSize_jump, codeSize_nil]
        omega
      · rw [hzero, Nat.mul_zero, Nat.add_zero, Nat.mod_eq_of_lt (Memory.get_lt hm z)]
    · obtain ⟨hgetb, hgeta, hgetz⟩ := get_productTurn h hm
      obtain ⟨m', hloop, hm', hsame, hval⟩ := ih _ (by rw [hgetb]; omega)
        (nibbles_productTurn hm) rfl
      refine ⟨m', ?_, hm', (sameOff_productTurn m).trans hsame, ?_⟩
      · intro pc out inp hold
        obtain ⟨hpc, hrest⟩ := id hold
        obtain ⟨hhead, hrest⟩ := (Image.holds_append ..).1 hrest
        obtain ⟨hbody, hjmp, -⟩ := (Image.holds_append ..).1 hrest
        have hlead := leads_whileNonzero (p := ⟨pc, m, out, inp⟩) hm h.placed_b hhead
        rw [if_neg hzero] at hlead
        have hback := (turns_productBody h hm _ out inp hbody).trans (Image.advances_jump hjmp).leads
        rw [Image.destination, hpc] at hback
        exact (hlead.trans hback).trans (hloop _ _ _ hold)
      · rw [hval, hgetb, hgeta, hgetz, product_invariant]

/-! ### The whole product -/

/-- What comes before the loop: `a := x; b := y; z := 0`. -/
def productStart (x y z a b : Var) : List Line :=
  (comment "a := x" :: assign x a none) ++ ((comment "b := y" :: assign y b none)
    ++ ((comment "z := 0" :: clear z) ++ [comment "WHILE b > 0 DO"]))

theorem product_eq (x y z a b : Var) (n : Nat) : product x y z a b n =
    productStart x y z a b ++ productLoop z a b n := by
  simp [product, productStart, productLoop, productBody, productShifts]

variable (image ρ) in
/-- `z := x * y`. -/
theorem turns_product {m : Memory} (h : ProductParts z a b) (hm : m.Nibbles) (hx : x.Placed)
    (hy : y.Placed) (hcx : x.cells = z.cells) (hcy : y.cells = z.cells) (hxa : x.Apart a)
    (hya : y.Apart a) (hyb : y.Apart b) :
    ∃ m', image.Turns ρ (product x y z a b n) m m' ∧ m'.Nibbles ∧ m.SameOff [z, a, b] m' ∧
      m'.get z = m.get x * m.get y % 16 ^ z.cells := by
  have hma : (m.set a (m.get x)).Nibbles := Memory.nibbles_set hm
  have hmb : ((m.set a (m.get x)).set b (m.get y)).Nibbles := Memory.nibbles_set hma
  have hassign := transforms_assign hma hy h.placed_b (hcy.trans h.cells_b.symm) hyb.clear
  rw [Memory.get_set_of_apart hya] at hassign
  have hstart : image.Turns ρ (productStart x y z a b) m
      (((m.set a (m.get x)).set b (m.get y)).set z 0) :=
    .append (.comment _ (.of_transforms
      (transforms_assign hm hx h.placed_a (hcx.trans h.cells_a.symm) hxa.clear)))
    (.append (.comment _ (.of_transforms hassign))
    (.append (.comment _ (.of_transforms (transforms_clear hmb h.placed_z)))
      (.comment _ (.nil _))))
  obtain ⟨m', hloop, hm', hsame, hval⟩ := turns_productLoop image ρ (n := n) h
    (Memory.nibbles_set (v := z) (x := 0) hmb)
  refine ⟨m', ?_, hm', ?_, ?_⟩
  · rw [product_eq]
    exact hstart.append hloop
  · exact (((Memory.sameOff_set (by simp) _ _).trans (Memory.sameOff_set (by simp) _ _)).trans
      (Memory.sameOff_set (by simp) _ _)).trans hsame
  · have hxlt : m.get x < 16 ^ a.cells := by rw [h.cells_a, ← hcx]; exact Memory.get_lt hm x
    have hylt : m.get y < 16 ^ b.cells := by rw [h.cells_b, ← hcy]; exact Memory.get_lt hm y
    rw [hval, Memory.get_set_same h.placed_z, Memory.get_set_of_apart h.za.symm,
      Memory.get_set_of_apart h.ab, Memory.get_set_same h.placed_a,
      Memory.get_set_of_apart h.zb.symm, Memory.get_set_same h.placed_b, Nat.mod_eq_of_lt hxlt,
      Nat.mod_eq_of_lt hylt, Nat.zero_mod, Nat.zero_add]

end NibblePascal.Code
