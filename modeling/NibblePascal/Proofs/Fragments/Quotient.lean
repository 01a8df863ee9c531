import NibblePascal.Code.Quotient
import NibblePascal.Proofs.Fragments.Arithmetic
import NibblePascal.Proofs.Fragments.Test

/-!
# Quotients and remainders

`Code.quotient` has two loops.  The first one doubles the divisor `w` while it is not above
the dividend `r` and its top bit is clear; with a divisor of zero it never ends.  The second
one keeps `q * w + r` and halves `w`, so it ends with the quotient in `q` and the remainder in
`r` when `w` is the divisor again (`turns_quotient`).
-/

namespace NibblePascal.Code

variable {image : Image} {ρ : String → Nat} {p : Point} {m : Memory} {x y q r w : Var} {n : Nat}

/-! ### Doubling the divisor -/

/-- The first loop, from the label at its head to the label behind it. -/
def scaleLoop (r w : Var) (n : Nat) : List Line :=
  label n :: (compare w r (labelName (n + 3)) (labelName (n + 1)) ++ label (n + 1) ::
    ([loadImm 8, toLow, load w.top, alu .and] ++ jump .jz (labelName (n + 2)) ::
      jump .jmp (labelName (n + 3)) :: label (n + 2) ::
        (shiftLeft w ++ [jump .jmp (labelName n), label (n + 3)])))

theorem scaleUp_eq (r w : Var) (n : Nat) : scaleUp r w n =
    comment "WHILE w <= r AND w < 2^(n-1) DO w := 2 * w;" :: scaleLoop r w n := by
  simp [scaleUp, scaleLoop]

/-- The top bit of a scalar is clear. -/
theorem top_and_eight (hm : m.Nibbles) :
    (m.read w.top &&& 8 == 0) = decide (2 * m.get w < 16 ^ w.cells) := by
  have hdigit : ∀ d < 16, (d &&& 8 == 0) = decide (d < 8) := by decide
  have hlow := hm.number_lt w.addr (w.cells - 1)
  have hcells := w.cells_pos
  have htop : w.top = w.addr + (w.cells - 1) := by
    unfold Var.top
    omega
  have hget : m.get w = m.number w.addr (w.cells - 1) + m.read w.top * 16 ^ (w.cells - 1) := by
    rw [Memory.get, htop, ← Memory.number_succ, Nat.sub_add_cancel hcells]
  have hpow : 16 ^ w.cells = 16 * 16 ^ (w.cells - 1) := by
    rw [← Nat.pow_succ', Nat.succ_eq_add_one, Nat.sub_add_cancel hcells]
  rw [hdigit _ (hm _), decide_eq_decide, hget, hpow]
  constructor
  · intro h
    have := Nat.mul_le_mul_right (16 ^ (w.cells - 1)) (Nat.le_of_lt_succ h)
    omega
  · intro h
    by_contra hge
    have := Nat.mul_le_mul_right (16 ^ (w.cells - 1)) (Nat.le_of_not_lt hge)
    omega

/-- What the first loop works on. -/
structure ScaleParts (r w : Var) : Prop where
  placed_r : r.Placed
  placed_w : w.Placed
  cells_w : w.cells = r.cells
  wr : w.Apart r

section

variable (h : ScaleParts r w)

include h

/-- The test of the top bit. -/
theorem leads_topTest {rest : List Line} (hm : p.mem.Nibbles)
    (hold : image.Holds ρ p.pc ([loadImm 8, toLow, load w.top, alu .and] ++
      jump .jz (labelName (n + 2)) :: jump .jmp (labelName (n + 3)) :: rest)) :
    image.Leads p { p with
      pc := ρ (labelName (if 2 * p.mem.get w < 16 ^ w.cells then n + 2 else n + 3)) } := by
  have htop : w.top < 4096 := by
    have hcell := Var.cell_lt h.placed_w (Nat.sub_lt w.cells_pos Nat.one_pos)
    have hpos := w.cells_pos
    unfold Var.cell at hcell
    unfold Var.top
    omega
  rw [Image.leads_iff]
  rintro s hb rfl
  obtain ⟨hload, hjz, hjmp, -⟩ := (Image.holds_append ..).1 hold
  obtain ⟨t, hst, hsame, hzero⟩ := performAll_mask 8 _ hb hm (by decide) htop
  rw [top_and_eight (m := s.mem) hm] at hzero
  have hat : ∀ pc, ({ t with pc := pc } : State).At { s.point with pc := pc } := fun pc =>
    ⟨rfl, hsame.bank.trans hb, hsame.mem, hsame.out, hsame.inp⟩
  refine .of_performAll hload hst ?_
  show image.Arrives _ { s.point with
    pc := ρ (labelName (if 2 * s.mem.get w < 16 ^ w.cells then n + 2 else n + 3)) }
  by_cases htwice : 2 * s.mem.get w < 16 ^ w.cells
  · rw [if_pos htwice]
    exact .of_taken hjz (by simp [hzero, htwice]) (.here (hat _))
  · rw [if_neg htwice]
    exact .of_passed hjz (by simpa [hzero] using htwice) (.of_taken hjmp rfl (.here (hat _)))

/-- The divisor is above the dividend or its top bit is set. -/
theorem leads_scaleExit (hm : p.mem.Nibbles) (hold : image.Holds ρ p.pc (scaleLoop r w n))
    (hexit : p.mem.get r < p.mem.get w ∨ 16 ^ w.cells ≤ 2 * p.mem.get w) :
    image.Leads p { p with pc := p.pc + codeSize (scaleLoop r w n) } := by
  obtain ⟨-, hrest⟩ := hold
  obtain ⟨hcompare, hlabel, htest⟩ := (Image.holds_append ..).1 hrest
  obtain ⟨-, -, -, -, hdouble⟩ := (Image.holds_append ..).1 htest
  obtain ⟨-, -, hend, -⟩ := (Image.holds_append ..).1 hdouble
  have hlead := leads_compare hm h.placed_w h.placed_r h.cells_w hcompare
  suffices hgoal : image.Leads p { p with pc := ρ (labelName (n + 3)) } by
    refine hgoal.at_pc ?_ rfl
    simp only [hend, scaleLoop, codeSize_append, codeSize_codeLabel, codeSize_jump, codeSize_nil]
    omega
  by_cases habove : p.mem.get r < p.mem.get w
  · rwa [ordered, if_pos habove] at hlead
  · rw [ordered_of_not_above habove hlabel] at hlead
    have htop := leads_topTest h (p := { p with
      pc := p.pc + codeSize (compare w r (labelName (n + 3)) (labelName (n + 1))) }) hm htest
    rw [if_neg (by simp only; omega)] at htop
    exact hlead.trans htop

/-- The divisor is doubled. -/
theorem advances_scaleTurn (hm : p.mem.Nibbles) (hold : image.Holds ρ p.pc (scaleLoop r w n))
    (hle : p.mem.get w ≤ p.mem.get r) (htop : 2 * p.mem.get w < 16 ^ w.cells) :
    image.Advances p { p with mem := p.mem.set w (2 * p.mem.get w) } := by
  obtain ⟨hpc, hrest⟩ := hold
  obtain ⟨hcompare, hlabel, htest⟩ := (Image.holds_append ..).1 hrest
  obtain ⟨-, -, -, hlabel', hdouble⟩ := (Image.holds_append ..).1 htest
  obtain ⟨hshift, hjmp, -⟩ := (Image.holds_append ..).1 hdouble
  have hlead := leads_compare hm h.placed_w h.placed_r h.cells_w hcompare
  rw [ordered_of_not_above (by omega) hlabel] at hlead
  have htest := leads_topTest h (p := { p with
    pc := p.pc + codeSize (compare w r (labelName (n + 3)) (labelName (n + 1))) }) hm htest
  rw [if_pos (by simpa using htop), hlabel'] at htest
  have hback := (Image.Turns.of_transforms (transforms_shiftLeft hm h.placed_w) _ p.out p.inp
    hshift).advances (Image.advances_jump hjmp)
  rw [Image.destination, hpc] at hback
  exact (hlead.trans htest).advances hback

variable (image ρ) in
/-- With a divisor other than zero the first loop ends. -/
theorem turns_scaleLoop (hm : m.Nibbles) (hpos : m.get w ≠ 0) :
    ∃ m', image.Turns ρ (scaleLoop r w n) m m' ∧ m'.Nibbles ∧ m.SameOff [w] m' ∧
      (∃ k, m'.get w = m.get w * 2 ^ k) ∧ m.get r < 2 * m'.get w := by
  -- the induction is on how far `w` is from its limit
  induction hk : 16 ^ w.cells - m.get w using Nat.strong_induction_on generalizing m with
  | _ k ih =>
    subst hk
    by_cases hexit : m.get r < m.get w ∨ 16 ^ w.cells ≤ 2 * m.get w
    · refine ⟨m, fun pc out inp hold => leads_scaleExit h hm hold hexit, hm, .refl _ _,
        ⟨0, by simp⟩, ?_⟩
      have hr := Memory.get_lt hm r
      rw [← h.cells_w] at hr
      omega
    · rw [not_or, Nat.not_lt, Nat.not_le] at hexit
      have hget : (m.set w (2 * m.get w)).get w = 2 * m.get w := by
        rw [Memory.get_set_same h.placed_w, Nat.mod_eq_of_lt hexit.2]
      obtain ⟨m', hloop, hm', hsame, ⟨j, hj⟩, hlt⟩ := ih _ (by rw [hget]; omega)
        (Memory.nibbles_set hm) (by rw [hget]; omega) rfl
      rw [Memory.get_set_of_apart h.wr.symm] at hlt
      refine ⟨m', ?_, hm', (Memory.sameOff_set (by simp) _ _).trans hsame, ⟨j + 1, ?_⟩, hlt⟩
      · intro pc out inp hold
        exact (advances_scaleTurn h (p := ⟨pc, m, out, inp⟩) hm hold hexit.1 hexit.2).leads.trans
          (hloop _ _ _ hold)
      · rw [hj, hget]
        ring

/-- With a divisor of zero the first loop never ends. -/
theorem lasts_scaleLoop (hm : p.mem.Nibbles) (hold : image.Holds ρ p.pc (scaleLoop r w n))
    (hzero : p.mem.get w = 0) (k : Nat) : image.Lasts k p := by
  induction k generalizing p with
  | zero => exact .zero p
  | succ k ih =>
    have hturn := advances_scaleTurn h hm hold (by omega)
      (by rw [hzero]; exact Nat.pow_pos (by decide))
    refine .of_advances hturn (ih (Memory.nibbles_set hm) hold ?_)
    rw [Memory.get_set_same h.placed_w, hzero]
    simp

end

/-! ### Halving it again -/

/-- What the second loop works on. -/
structure ReduceParts (y q r w : Var) : Prop extends ScaleParts r w where
  placed_y : y.Placed
  placed_q : q.Placed
  cells_y : y.cells = r.cells
  cells_q : q.cells = r.cells
  yq : y.Apart q
  yr : y.Apart r
  yw : y.Apart w
  qr : q.Apart r
  qw : q.Apart w

/-- The first half of a turn: subtract `w` from `r` where it fits. -/
def reduceFirst (q r w : Var) (n : Nat) : List Line :=
  compare w r (labelName n) (labelName (n + 1)) ++ label (n + 1) :: comment "r := r - w" ::
    (combine .sub r w r ++ comment "q := q + 1" :: (increment q ++ [label n]))

/-- The second half of a turn: leave the loop, or go down to half of `w`. -/
def reduceSecond (y q w : Var) (n : Nat) : List Line :=
  compare w y (labelName (n + 2)) (labelName (n + 3)) ++ jump .jmp (labelName (n + 3)) ::
    label (n + 2) :: comment "q := 2 * q;" :: (shiftLeft q ++ comment "w := w / 2;" ::
      (shiftRight w ++ [jump .jmp (labelName (n + 4)), label (n + 3)]))

/-- The second loop, from the label at its head to the label behind it. -/
def reduceLoop (y q r w : Var) (n : Nat) : List Line :=
  label (n + 4) :: comment "IF w <= r THEN" :: (reduceFirst q r w n ++
    comment "IF w = y THEN EXIT" :: reduceSecond y q w n)

theorem reduce_eq (y q r w : Var) (n : Nat) :
    reduce y q r w n = comment "LOOP" :: reduceLoop y q r w n := by
  simp [reduce, reduceLoop, reduceFirst, reduceSecond]

section

variable (h : ReduceParts y q r w)

include h

/-- The memory after the first half. -/
def reduced (q r w : Var) (m : Memory) : Memory :=
  if m.get w ≤ m.get r then (m.set r (m.get r - m.get w)).set q (m.get q + 1) else m

theorem turns_reduceFirst (hm : m.Nibbles) :
    image.Turns ρ (reduceFirst q r w n) m (reduced q r w m) := by
  intro pc out inp hold
  obtain ⟨hcompare, hlabel, hsteps⟩ := (Image.holds_append ..).1 hold
  obtain ⟨hsub, hinc⟩ := (Image.holds_append ..).1 hsteps
  obtain ⟨hinc, hend, -⟩ := (Image.holds_append ..).1 hinc
  have hlead := leads_compare (p := ⟨pc, m, out, inp⟩) hm h.placed_w h.placed_r h.cells_w hcompare
  have hsize : ρ (labelName n) = pc + codeSize (reduceFirst q r w n) := by
    simp only [hend, reduceFirst, codeSize_append, codeSize_codeLabel, codeSize_codeComment,
      codeSize_nil]
    omega
  rw [← hsize, reduced]
  by_cases hle : m.get w ≤ m.get r
  · rw [ordered_of_not_above (Nat.not_lt.2 hle) hlabel] at hlead
    rw [if_pos hle]
    have hr := Memory.get_lt hm r
    -- the difference does not wrap
    have hdiff : m.set r (AluOp.sub.total false (16 ^ r.cells) (m.get r) (m.get w)) =
        m.set r (m.get r - m.get w) := by
      rw [← Memory.set_mod hm h.placed_r]
      congr 1
      rw [AluOp.total, show m.get r + 16 ^ r.cells - (m.get w + false.toNat) =
        m.get r - m.get w + 16 ^ r.cells by simp only [Bool.toNat_false]; omega,
        Nat.add_mod_right, Nat.mod_eq_of_lt (by omega)]
    have hcombine := transforms_combine .sub hm h.placed_r h.placed_w h.placed_r
      h.cells_w.symm rfl (.refl r) h.wr.clear (by decide) (by decide)
    rw [hdiff] at hcombine
    have hincrement := transforms_increment (v := q)
      (Memory.nibbles_set (v := r) (x := m.get r - m.get w) hm) h.placed_q
    rw [Memory.get_set_of_apart h.qr] at hincrement
    refine (hlead.trans (((Image.Turns.of_transforms hcombine) _ _ _ hsub).trans
      ((Image.Turns.of_transforms hincrement) _ _ _ hinc))).at_pc ?_ rfl
    rw [hend]
  · rw [ordered, if_pos (Nat.lt_of_not_le hle)] at hlead
    rwa [if_neg hle]

omit h in
/-- The quotient so far is not above the dividend. -/
theorem no_overflow {q r w limit : Nat} (hx : q * w + r < limit) (hw : 0 < w) :
    w ≤ r → q + 1 < limit := by
  intro hle
  have hq : q + 1 ≤ (q + 1) * w := Nat.le_mul_of_pos_right _ hw
  rw [Nat.add_mul, Nat.one_mul] at hq
  omega

theorem get_reduced (hm : m.Nibbles) (hq : m.get w ≤ m.get r → m.get q + 1 < 16 ^ q.cells) :
    (reduced q r w m).get w = m.get w ∧ (reduced q r w m).get y = m.get y ∧
      (reduced q r w m).get q * m.get w + (reduced q r w m).get r =
        m.get q * m.get w + m.get r ∧
      (m.get r < 2 * m.get w → (reduced q r w m).get r < m.get w) := by
  unfold reduced
  split
  · rename_i hle
    have hr := Memory.get_lt hm r
    rw [Memory.get_set_of_apart h.qw.symm, Memory.get_set_of_apart h.wr,
      Memory.get_set_of_apart h.yq, Memory.get_set_of_apart h.yr, Memory.get_set_same h.placed_q,
      Memory.get_set_of_apart h.qr.symm, Memory.get_set_same h.placed_r,
      Nat.mod_eq_of_lt (hq hle), Nat.mod_eq_of_lt (by omega), Nat.add_mul]
    omega
  · rename_i hlt
    exact ⟨rfl, rfl, rfl, fun _ => Nat.lt_of_not_le hlt⟩

omit h in
theorem nibbles_reduced (hm : m.Nibbles) : (reduced q r w m).Nibbles := by
  unfold reduced
  split
  · exact Memory.nibbles_set (Memory.nibbles_set hm)
  · exact hm

omit h in
theorem sameOff_reduced (m : Memory) : m.SameOff [q, r, w] (reduced q r w m) := by
  unfold reduced
  split
  · exact (Memory.sameOff_set (by simp) _ _).trans (Memory.sameOff_set (by simp) _ _)
  · exact .refl _ _

/-- The divisor is reached again. -/
theorem leads_reduceExit (hm : p.mem.Nibbles) (hold : image.Holds ρ p.pc (reduceSecond y q w n))
    (hexit : p.mem.get w = p.mem.get y) :
    image.Leads p { p with pc := p.pc + codeSize (reduceSecond y q w n) } := by
  obtain ⟨hcompare, hjmp, hlabel, hrest⟩ := (Image.holds_append ..).1 hold
  obtain ⟨-, hrest⟩ := (Image.holds_append ..).1 hrest
  obtain ⟨-, -, hend, -⟩ := (Image.holds_append ..).1 hrest
  have hlead := leads_compare hm h.placed_w h.placed_y (h.cells_w.trans h.cells_y.symm) hcompare
  rw [hexit, ordered, if_neg (lt_irrefl _), if_neg (lt_irrefl _)] at hlead
  refine (hlead.trans (Image.advances_jump hjmp).leads).at_pc ?_ rfl
  simp only [Image.destination, hend, reduceSecond, codeSize_append, codeSize_codeLabel,
    codeSize_codeComment, codeSize_jump, codeSize_nil]
  omega

/-- The divisor is halved. -/
theorem leads_reduceTurn (hm : p.mem.Nibbles) (hold : image.Holds ρ p.pc (reduceSecond y q w n))
    (hlt : p.mem.get y < p.mem.get w) :
    image.Leads p { p with
      pc := ρ (labelName (n + 4)),
      mem := (p.mem.set q (2 * p.mem.get q)).set w (p.mem.get w / 2) } := by
  obtain ⟨hcompare, -, hlabel, hrest⟩ := (Image.holds_append ..).1 hold
  obtain ⟨hleft, hrest⟩ := (Image.holds_append ..).1 hrest
  obtain ⟨hright, hjmp, -⟩ := (Image.holds_append ..).1 hrest
  have hlead := leads_compare hm h.placed_w h.placed_y (h.cells_w.trans h.cells_y.symm) hcompare
  rw [ordered, if_pos hlt, hlabel] at hlead
  have hq := transforms_shiftLeft hm h.placed_q
  have hw := transforms_shiftRight (Memory.nibbles_set (v := q) (x := 2 * p.mem.get q) hm) h.placed_w
  rw [Memory.get_set_of_apart h.qw.symm] at hw
  exact hlead.trans ((Image.Turns.of_transforms hq _ _ _ hleft).trans
    ((Image.Turns.of_transforms hw _ _ _ hright).trans (Image.advances_jump hjmp).leads))

variable (image ρ) in
/-- The second loop ends with the quotient and the remainder. -/
theorem turns_reduceLoop {k : Nat} (hm : m.Nibbles) (hy : 0 < m.get y)
    (hw : m.get w = m.get y * 2 ^ k) (hr : m.get r < 2 * m.get w)
    (hx : m.get q * m.get w + m.get r < 16 ^ r.cells) :
    ∃ m', image.Turns ρ (reduceLoop y q r w n) m m' ∧ m'.Nibbles ∧ m.SameOff [q, r, w] m' ∧
      m'.get q = (m.get q * m.get w + m.get r) / m.get y ∧
      m'.get r = (m.get q * m.get w + m.get r) % m.get y := by
  -- the induction is on the number of times that `w` was doubled
  induction k generalizing m with
  | zero =>
    rw [Nat.pow_zero, Nat.mul_one] at hw
    have hwpos : 0 < m.get w := hw ▸ hy
    obtain ⟨hgw, hgy, hsum, hlt⟩ := get_reduced h hm (no_overflow (by rwa [h.cells_q]) hwpos)
    refine ⟨reduced q r w m, ?_, nibbles_reduced hm, sameOff_reduced m, ?_⟩
    · rintro pc out inp ⟨-, hrest⟩
      obtain ⟨hfirst, hsecond⟩ := (Image.holds_append ..).1 hrest
      have hexit := leads_reduceExit h (p := ⟨_, reduced q r w m, out, inp⟩) (nibbles_reduced hm)
        hsecond (by rw [hgw, hgy, hw])
      refine ((turns_reduceFirst h hm _ _ _ hfirst).trans hexit).at_pc ?_ rfl
      simp only [reduceLoop, codeSize_codeLabel, codeSize_codeComment, codeSize_append,
        Nat.add_assoc]
    · have hparts : (reduced q r w m).get r + m.get y * (reduced q r w m).get q =
          m.get q * m.get w + m.get r := by
        rw [← hsum, hw]
        ring
      have hdiv := (Nat.div_mod_unique hy).2 ⟨hparts, hw ▸ hlt hr⟩
      exact ⟨hdiv.1.symm, hdiv.2.symm⟩
  | succ k ih =>
    have hhalf : m.get w = 2 * (m.get y * 2 ^ k) := by
      rw [hw]
      ring
    have hpos : 0 < m.get y * 2 ^ k := Nat.mul_pos hy (Nat.pow_pos (by decide))
    have hwpos : 0 < m.get w := by omega
    obtain ⟨hgw, hgy, hsum, hlt⟩ := get_reduced h hm (no_overflow (by rwa [h.cells_q]) hwpos)
    let m₁ := reduced q r w m
    let m₂ := (m₁.set q (2 * m₁.get q)).set w (m₁.get w / 2)
    have hsum : m₁.get q * m.get w + m₁.get r = m.get q * m.get w + m.get r := hsum
    have hq₂ : m₂.get q = 2 * m₁.get q := by
      have hle : 2 * m₁.get q ≤ m₁.get q * m.get w := by
        rw [hhalf, Nat.mul_left_comm]
        exact Nat.mul_le_mul_left 2 (Nat.le_mul_of_pos_right _ hpos)
      rw [Memory.get_set_of_apart h.qw, Memory.get_set_same h.placed_q, h.cells_q,
        Nat.mod_eq_of_lt (by omega)]
    have hw₂ : m₂.get w = m.get y * 2 ^ k := by
      have hlt := Memory.get_lt hm w
      rw [Memory.get_set_same h.placed_w, hgw, Nat.mod_eq_of_lt (by omega), hhalf]
      omega
    have hy₂ : m₂.get y = m.get y := by
      rw [Memory.get_set_of_apart h.yw, Memory.get_set_of_apart h.yq, hgy]
    have hr₂ : m₂.get r = m₁.get r := by
      rw [Memory.get_set_of_apart h.wr.symm, Memory.get_set_of_apart h.qr.symm]
    have hx₂ : m₂.get q * m₂.get w + m₂.get r = m.get q * m.get w + m.get r := by
      rw [hq₂, hw₂, hr₂, ← hsum, hhalf]
      ring
    obtain ⟨m', hloop, hm', hsame, hval⟩ := ih (m := m₂)
      (Memory.nibbles_set (Memory.nibbles_set (nibbles_reduced hm))) (hy₂ ▸ hy)
      (by rw [hw₂, hy₂]) (by rw [hr₂, hw₂, ← hhalf]; exact hlt hr) (by rw [hx₂]; exact hx)
    rw [hx₂, hy₂] at hval
    refine ⟨m', ?_, hm', ?_, hval⟩
    · rintro pc out inp hold
      obtain ⟨hpc, hrest⟩ := id hold
      obtain ⟨hfirst, hsecond⟩ := (Image.holds_append ..).1 hrest
      have hyw : m.get y < m.get w := by
        have := Nat.le_mul_of_pos_right (m.get y) (Nat.pow_pos (n := k) (a := 2) (by decide))
        omega
      have hturn := leads_reduceTurn h (p := ⟨_, m₁, out, inp⟩) (nibbles_reduced hm) hsecond
        (by rwa [hgw, hgy])
      rw [hpc] at hturn
      exact ((turns_reduceFirst h hm _ _ _ hfirst).trans hturn).trans (hloop _ _ _ hold)
    · exact (((sameOff_reduced m).trans (Memory.sameOff_set (by simp) _ _)).trans
        (Memory.sameOff_set (by simp) _ _)).trans hsame

end

/-! ### The whole division -/

/-- What comes before the loops: `r := x; w := y; q := 0`. -/
def quotientStart (x y q r w : Var) : List Line :=
  assign x r none ++ (assign y w none ++ clear q)

theorem quotient_eq (x y q r w : Var) (remainder : Bool) (n : Nat) :
    quotient x y q r w remainder n = quotientStart x y q r w ++
      (comment "WHILE w <= r AND w < 2^(n-1) DO w := 2 * w;" :: scaleLoop r w n ++
        (comment "LOOP" :: reduceLoop y q r w (n + 4) ++
          if remainder then assign r q none else [])) := by
  simp [quotient, quotientStart, scaleUp_eq, reduce_eq]

section

variable (h : ReduceParts y q r w) (hm : m.Nibbles) (hx : x.Placed) (hcx : x.cells = r.cells)
  (hxr : x.Apart r)

/-- The memory before the loops. -/
def quotientReady (x y q r w : Var) (m : Memory) : Memory :=
  ((m.set r (m.get x)).set w (m.get y)).set q 0

include h hm hx hcx hxr

theorem turns_quotientStart :
    image.Turns ρ (quotientStart x y q r w) m (quotientReady x y q r w m) := by
  have hmr : (m.set r (m.get x)).Nibbles := Memory.nibbles_set hm
  have hassign := transforms_assign hmr h.placed_y h.placed_w (h.cells_y.trans h.cells_w.symm)
    h.yw.clear
  rw [Memory.get_set_of_apart h.yr] at hassign
  exact .append (.of_transforms (transforms_assign hm hx h.placed_r hcx hxr.clear))
    (.append (.of_transforms hassign)
      (.of_transforms (transforms_clear (Memory.nibbles_set hmr) h.placed_q)))

omit hx hxr in
theorem get_quotientReady :
    (quotientReady x y q r w m).get r = m.get x ∧ (quotientReady x y q r w m).get w = m.get y ∧
      (quotientReady x y q r w m).get q = 0 ∧ (quotientReady x y q r w m).get y = m.get y := by
  have hxlt : m.get x < 16 ^ r.cells := hcx ▸ Memory.get_lt hm x
  have hylt : m.get y < 16 ^ w.cells := by
    rw [h.cells_w, ← h.cells_y]
    exact Memory.get_lt hm y
  unfold quotientReady
  refine ⟨?_, ?_, ?_, ?_⟩
  · rw [Memory.get_set_of_apart h.qr.symm, Memory.get_set_of_apart h.wr.symm,
      Memory.get_set_same h.placed_r, Nat.mod_eq_of_lt hxlt]
  · rw [Memory.get_set_of_apart h.qw.symm, Memory.get_set_same h.placed_w, Nat.mod_eq_of_lt hylt]
  · rw [Memory.get_set_same h.placed_q, Nat.zero_mod]
  · rw [Memory.get_set_of_apart h.yq, Memory.get_set_of_apart h.yw, Memory.get_set_of_apart h.yr]

variable (image ρ) in
/-- `q := x / y`, or the remainder. -/
theorem turns_quotient (remainder : Bool) (hy : m.get y ≠ 0) :
    ∃ m', image.Turns ρ (quotient x y q r w remainder n) m m' ∧ m'.Nibbles ∧
      m.SameOff [q, r, w] m' ∧
      m'.get q = if remainder then m.get x % m.get y else m.get x / m.get y := by
  obtain ⟨hr₀, hw₀, hq₀, hy₀⟩ := get_quotientReady h hm hcx
  have hm₀ : (quotientReady x y q r w m).Nibbles :=
    Memory.nibbles_set (Memory.nibbles_set (Memory.nibbles_set hm))
  obtain ⟨m₁, hscale, hm₁, hsame₁, ⟨k, hk⟩, hlt⟩ := turns_scaleLoop image ρ
    (n := n) h.toScaleParts hm₀ (by rwa [hw₀])
  have hr₁ : m₁.get r = m.get x := by rw [hsame₁.get_eq (by simpa using h.wr.symm), hr₀]
  have hq₁ : m₁.get q = 0 := by rw [hsame₁.get_eq (by simpa using h.qw), hq₀]
  have hy₁ : m₁.get y = m.get y := by rw [hsame₁.get_eq (by simpa using h.yw), hy₀]
  have hxlt : m.get x < 16 ^ r.cells := hcx ▸ Memory.get_lt hm x
  obtain ⟨m₂, hreduce, hm₂, hsame₂, hq₂, hr₂⟩ := turns_reduceLoop image ρ
    (n := n + 4) (k := k) h hm₁ (by rw [hy₁]; omega) (by rw [hk, hw₀, hy₁])
    (by rw [hr₁, ← hr₀]; exact hlt) (by rw [hq₁, Nat.zero_mul, Nat.zero_add, hr₁]; exact hxlt)
  rw [hq₁, Nat.zero_mul, Nat.zero_add, hr₁, hy₁] at hq₂ hr₂
  have hsame : m.SameOff [q, r, w] m₂ :=
    ((((Memory.sameOff_set (by simp) _ _).trans (Memory.sameOff_set (by simp) _ _)).trans
      (Memory.sameOff_set (by simp) _ _)).trans (hsame₁.mono (by simp))).trans hsame₂
  rw [quotient_eq]
  cases remainder with
  | false =>
    refine ⟨m₂, (turns_quotientStart h hm hx hcx hxr).append ((hscale.comment _).append
      ((hreduce.comment _).append (.nil _))), hm₂, hsame, hq₂⟩
  | true =>
    have hassign := transforms_assign hm₂ h.placed_r h.placed_q h.cells_q.symm h.qr.symm.clear
    refine ⟨m₂.set q (m₂.get r), (turns_quotientStart h hm hx hcx hxr).append ((hscale.comment _).append
      ((hreduce.comment _).append (.of_transforms hassign))), Memory.nibbles_set hm₂,
      hsame.trans (Memory.sameOff_set (by simp) _ _), ?_⟩
    have hlt : m₂.get r < 16 ^ q.cells := h.cells_q ▸ Memory.get_lt hm₂ r
    rw [Memory.get_set_same h.placed_q, Nat.mod_eq_of_lt hlt, hr₂, if_pos rfl]

/-- A division by zero does not end. -/
theorem lasts_quotient (remainder : Bool) (hy : m.get y = 0) {pc : Nat} {out inp : Vector Nat 16}
    (hold : image.Holds ρ pc (quotient x y q r w remainder n)) (k : Nat) :
    image.Lasts k ⟨pc, m, out, inp⟩ := by
  obtain ⟨-, hw₀, -, -⟩ := get_quotientReady h hm hcx
  rw [quotient_eq] at hold
  obtain ⟨hstart, hrest⟩ := (Image.holds_append ..).1 hold
  obtain ⟨hscale, -⟩ := (Image.holds_append ..).1 hrest
  refine .of_leads (turns_quotientStart h hm hx hcx hxr _ _ _ hstart) ?_
  exact lasts_scaleLoop h.toScaleParts (p := ⟨_, quotientReady x y q r w m, out, inp⟩)
    (Memory.nibbles_set (Memory.nibbles_set (Memory.nibbles_set hm))) hscale (hw₀.trans hy) k

end

end NibblePascal.Code
