import NibblePascal.Code.Test
import NibblePascal.Proofs.Fragments.Scalar
import NibblePascal.Proofs.Machine.Jumps

/-!
# Fragments that compare

Comparisons go from the highest digit down: the first digit that differs settles the order of
the numbers.  They change neither the memory nor the ports, so where they lead is all there is
to say:

* `leads_compare` goes to one of two labels or on, by the order of two scalars;
* `advances_relationTest`, `advances_oddTest` and `advances_nonzeroTest` go to one of two labels, by
  the truth of what is tested.
-/

namespace NibblePascal

/-! ### Order and digits -/

theorem add_digit_lt_iff {w x y a b : Nat} (hx : x < w) (hy : y < w) :
    x + a * w < y + b * w ↔ a < b ∨ a = b ∧ x < y := by
  rcases Nat.lt_trichotomy a b with h | rfl | h
  · have hmul : (a + 1) * w ≤ b * w := Nat.mul_le_mul_right w h
    rw [Nat.add_mul] at hmul
    omega
  · simp
  · have hmul : (b + 1) * w ≤ a * w := Nat.mul_le_mul_right w h
    rw [Nat.add_mul] at hmul
    omega

namespace Relation

variable {rel : Relation} {w x y a b : Nat}

/-- A relation between numbers whose highest digits differ is one between these digits. -/
theorem holds_of_digit_ne (hx : x < w) (hy : y < w) (hab : a ≠ b) :
    rel.holds (x + a * w) (y + b * w) = rel.holds a b := by
  have hlt := add_digit_lt_iff (a := a) (b := b) hx hy
  have hgt := add_digit_lt_iff (a := b) (b := a) hy hx
  cases rel <;> simp only [holds, beq_eq_decide, bne, ← decide_not, decide_eq_decide] <;> omega

/-- A relation between numbers with the same highest digit is one between the others. -/
theorem holds_of_digit_eq : rel.holds (x + a * w) (y + a * w) = rel.holds x y := by
  cases rel <;> simp [holds, bne]

end Relation

/-! ### The flags after a comparison -/

/-- The flags after the comparison of two digits with the carry clear. -/
def Flags.ofDigits (x y : Nat) : Flags := ⟨decide (x < y), x == y⟩

namespace JumpKind

variable (x y : Nat)

@[simp] theorem taken_jmp (flags : Flags) : jmp.taken flags = true := rfl

@[simp] theorem taken_ja : ja.taken (.ofDigits x y) = decide (y < x) := by
  rw [Bool.eq_iff_iff]
  simp [taken, Flags.ofDigits]
  omega

@[simp] theorem taken_jb : jb.taken (.ofDigits x y) = decide (x < y) := rfl

@[simp] theorem taken_je : je.taken (.ofDigits x y) = (x == y) := rfl

@[simp] theorem taken_jz : jz.taken (.ofDigits x y) = (x == y) := rfl

end JumpKind

namespace Code

variable {image : Image} {ρ : String → Nat} {p : Point} {s : State} {a b v : Var}

/-! ### Comparison -/

theorem performAll_compareCell {x y : Nat} (hb : s.bank = 0) (hm : s.mem.Nibbles)
    (hc : s.flags.carry = false) (hx : x < 4096) (hy : y < 4096) :
    ∃ t, s.performAll [load y, toLow, load x, cmp] = some t ∧ s.Same t ∧
      t.flags = .ofDigits (s.mem.read x) (s.mem.read y) := by
  refine ⟨{ s with acc := s.mem.read x, bl := s.mem.read y,
                   flags := Flags.compare (s.mem.read x) (s.mem.read y) s.flags }, ?_,
    ⟨rfl, rfl, rfl, rfl⟩, ?_⟩
  · simp [hb, hx, hy]
  · simp [Flags.compare, Flags.ofDigits, hc, Nat.mod_eq_of_lt (hm _)]

/-- Where a comparison leads. -/
def ordered (above below next x y : Nat) : Nat :=
  if y < x then above else if x < y then below else next

theorem ordered_add_digit (above below next x y a w : Nat) :
    ordered above below next (x + a * w) (y + a * w) = ordered above below next x y := by
  simp [ordered]

/-- A comparison that goes on alike for smaller and for equal numbers. -/
theorem ordered_of_not_above {above below next x y : Nat} (h : ¬ y < x) (hnext : below = next) :
    ordered above below next x y = next := by
  simp [ordered, h, hnext]

/-- The lowest `count` digits are compared; the carry is clear before and between. -/
theorem arrives_compareCells {above below : String} (hm : s.mem.Nibbles) (hb : s.bank = 0)
    (hpa : a.Placed) (hpb : b.Placed) (hab : a.cells = b.cells) {count : Nat}
    (hcount : count ≤ a.cells) (hc : s.flags.carry = false) {lines : List Line}
    (hlines : lines = (List.range count).reverse.flatMap fun i =>
      compareCell a b i ++ [jump .ja above, jump .jb below])
    (hold : image.Holds ρ s.pc lines) :
    image.Arrives s { s.point with
      pc := ordered (ρ above) (ρ below) (s.pc + codeSize lines)
        (s.mem.number a.addr count) (s.mem.number b.addr count) } := by
  induction count generalizing s lines with
  | zero =>
    subst hlines
    exact .here (State.at_iff.2 ⟨hb, rfl⟩)
  | succ count ih =>
    rw [List.range_succ, List.reverse_append, List.reverse_singleton, List.singleton_append,
      List.flatMap_cons, List.append_assoc] at hlines
    rw [hlines] at hold
    obtain ⟨hcell, hja, hjb, hlower⟩ := (Image.holds_append ..).1 hold
    obtain ⟨t, hst, hsame, hflags⟩ := performAll_compareCell hb hm hc
      (Var.cell_lt hpa (by omega : count < a.cells))
      (Var.cell_lt hpb (by omega : count < b.cells))
    have hlow := add_digit_lt_iff (a := s.mem.read (a.addr + count))
      (b := s.mem.read (b.addr + count)) (hm.number_lt a.addr count)
      (hm.number_lt b.addr count)
    have hhigh := add_digit_lt_iff (a := s.mem.read (b.addr + count))
      (b := s.mem.read (a.addr + count)) (hm.number_lt b.addr count)
      (hm.number_lt a.addr count)
    refine .of_performAll hcell hst ?_
    have hat : ∀ pc, ({ t with pc := pc } : State).At { s.point with pc := pc } := fun pc =>
      ⟨rfl, hsame.bank.trans hb, hsame.mem, hsame.out, hsame.inp⟩
    rw [Memory.number_succ, Memory.number_succ]
    rcases Nat.lt_trichotomy (s.mem.read (a.addr + count)) (s.mem.read (b.addr + count))
      with h | h | h
    · rw [ordered, if_neg (by omega), if_pos (by omega)]
      refine .of_passed hja ?_ (.of_taken hjb ?_ (.here (hat _)))
      · simp [hflags, Var.cell, h.le]
      · simp [hflags, Var.cell, h]
    · -- equal digits: the comparison goes on with the lower ones
      let u : State := { t with pc := s.pc + codeSize (compareCell a b count) + 1 + 1 }
      have hsu : s.Same u := ⟨hsame.bank, hsame.mem, hsame.out, hsame.inp⟩
      have hcarry : u.flags.carry = false := by
        simp [u, hflags, Flags.ofDigits, Var.cell, h]
      have hu := ih (s := u) (by rw [hsu.mem]; exact hm) (hsu.bank.trans hb) (by omega) hcarry
        rfl hlower
      rw [hsu.point_eq, hsu.mem] at hu
      refine .of_passed hja ?_ (.of_passed hjb ?_ ?_)
      · simp [hflags, Var.cell, h]
      · simp [hflags, Var.cell, h]
      · have hend : s.pc + codeSize lines = u.pc + codeSize ((List.range count).reverse.flatMap
            fun i => compareCell a b i ++ [jump .ja above, jump .jb below]) := by
          rw [hlines]
          simp [u]
          omega
        rw [h, ordered_add_digit, hend]
        exact hu
    · rw [ordered, if_pos (by omega)]
      refine .of_taken hja ?_ (.here (hat _))
      simp [hflags, Var.cell, h]

/-- To `above` if `a` is the greater one, to `below` if it is the smaller one, and on if they
are equal. -/
theorem leads_compare {above below : String} (hm : p.mem.Nibbles) (hpa : a.Placed)
    (hpb : b.Placed) (hab : a.cells = b.cells)
    (hold : image.Holds ρ p.pc (compare a b above below)) :
    image.Leads p { p with
      pc := ordered (ρ above) (ρ below) (p.pc + codeSize (compare a b above below))
        (p.mem.get a) (p.mem.get b) } := by
  rw [Image.leads_iff]
  rintro s hb rfl
  let t : State := { s with flags := { s.flags with carry := false } }
  rw [compare, ← List.singleton_append] at hold
  obtain ⟨hcarry, hcells⟩ := (Image.holds_append ..).1 hold
  refine .of_performAll hcarry (t := t) rfl ?_
  have hcompare := arrives_compareCells (s := { t with pc := s.pc + 1 }) hm hb hpa hpb hab le_rfl
    rfl rfl hcells
  rw [Nat.add_assoc, Nat.add_comm 1] at hcompare
  rw [compare, Memory.get, Memory.get, ← hab]
  exact hcompare

/-! ### Tests of relations -/

@[simp] theorem closeTest_nil (yes no : String) : closeTest yes no [] = [] := rfl

@[simp] theorem closeTest_line (yes no : String) (l : Line) (test : List TestLine) :
    closeTest yes no (.line l :: test) = l :: closeTest yes no test := rfl

@[simp] theorem closeTest_exit (yes no : String) (outcome : Bool) (kind : JumpKind)
    (test : List TestLine) :
    closeTest yes no (.exit outcome kind :: test) =
      jump kind (if outcome then yes else no) :: closeTest yes no test := rfl

@[simp] theorem closeTest_append (yes no : String) (test test' : List TestLine) :
    closeTest yes no (test ++ test') = closeTest yes no test ++ closeTest yes no test' :=
  List.map_append

@[simp] theorem closeTest_map_line (yes no : String) (lines : List Line) :
    closeTest yes no (lines.map .line) = lines := by
  simp [closeTest, Function.comp_def]

section

variable {yes no : String} {rel : Relation} {n x y : Nat}

/-- Two exits for different orders, which equal digits pass. -/
theorem arrives_orderExits {kind kind' : JumpKind} {outcome equal truth lowest : Bool}
    {target : Nat} {lines : List Line} (hb : s.bank = 0)
    (hlines : lines = closeTest yes no ([.exit outcome kind, .exit (!outcome) kind']
      ++ if lowest then [.exit equal .jmp] else []))
    (hold : image.Holds ρ s.pc lines)
    (hkind : kind.taken s.flags = true ↔ x ≠ y ∧ truth = outcome)
    (hkind' : kind'.taken s.flags = true ↔ x ≠ y ∧ truth = !outcome)
    (hequal : x = y → truth = equal)
    (hset : x ≠ y ∨ lowest = true → target = ρ (if truth then yes else no))
    (hpass : x = y → lowest = false →
      image.Arrives { s with pc := s.pc + codeSize lines } { s.point with pc := target }) :
    image.Arrives s { s.point with pc := target } := by
  subst hlines
  obtain ⟨hop, hop', hrest⟩ := hold
  by_cases hxy : x = y
  · refine .of_passed hop (by simpa [hxy] using hkind) (.of_passed hop' (by simpa [hxy] using hkind') ?_)
    cases lowest with
    | true =>
      rw [hset (.inr rfl), hequal hxy]
      exact .of_taken hrest.1 rfl (.here ⟨rfl, hb, rfl, rfl, rfl⟩)
    | false => exact hpass hxy rfl
  · rw [hset (.inl hxy)]
    by_cases htruth : truth = outcome
    · rw [htruth]
      exact .of_taken hop (hkind.2 ⟨hxy, htruth⟩) (.here ⟨rfl, hb, rfl, rfl, rfl⟩)
    · have htruth' : truth = !outcome := by revert htruth; cases truth <;> cases outcome <;> simp
      refine .of_passed hop (by simpa [htruth] using hkind) ?_
      rw [htruth']
      exact .of_taken hop' (hkind'.2 ⟨hxy, htruth'⟩) (.here ⟨rfl, hb, rfl, rfl, rfl⟩)

/-- An exit for different digits, which equal digits jump over. -/
theorem arrives_equalityExits {outcome lowest : Bool} {target : Nat} {lines : List Line}
    (hb : s.bank = 0)
    (hlines : lines = closeTest yes no ([.line (jump .je (labelName n)), .exit outcome .jmp,
      .line (label n)] ++ if lowest then [.exit (!outcome) .jmp] else []))
    (hold : image.Holds ρ s.pc lines) (hflags : s.flags = .ofDigits x y)
    (hset : x ≠ y ∨ lowest = true →
      target = ρ (if (if x = y then !outcome else outcome) then yes else no))
    (hpass : x = y → lowest = false →
      image.Arrives { s with pc := s.pc + codeSize lines } { s.point with pc := target }) :
    image.Arrives s { s.point with pc := target } := by
  subst hlines
  obtain ⟨hje, hjmp, hlabel, hrest⟩ := hold
  by_cases hxy : x = y
  · refine .of_taken hje (by simp [hflags, hxy]) ?_
    rw [Image.destination, hlabel]
    cases lowest with
    | true =>
      rw [hset (.inr rfl), if_pos hxy]
      exact .of_taken hrest.1 rfl (.here ⟨rfl, hb, rfl, rfl, rfl⟩)
    | false => exact hpass hxy rfl
  · rw [hset (.inl hxy), if_neg hxy]
    exact .of_passed hje (by simp [hflags, hxy])
      (.of_taken hjmp rfl (.here ⟨rfl, hb, rfl, rfl, rfl⟩))

/-- The exits after the comparison of one cell. -/
theorem arrives_cellExits {lowest : Bool} {target : Nat} (hb : s.bank = 0)
    (hold : image.Holds ρ s.pc (closeTest yes no (cellExits rel n lowest)))
    (hflags : s.flags = .ofDigits x y)
    (hset : x ≠ y ∨ lowest = true → target = ρ (if rel.holds x y then yes else no))
    (hpass : x = y → lowest = false → image.Arrives
      { s with pc := s.pc + codeSize (closeTest yes no (cellExits rel n lowest)) }
      { s.point with pc := target }) :
    image.Arrives s { s.point with pc := target } := by
  cases rel with
  | eq =>
    refine arrives_equalityExits hb rfl hold hflags (fun h => ?_) hpass
    rw [hset h]
    by_cases hxy : x = y <;> simp [Relation.holds, hxy]
  | ne =>
    refine arrives_equalityExits hb rfl hold hflags (fun h => ?_) hpass
    rw [hset h]
    by_cases hxy : x = y <;> simp [Relation.holds, hxy]
  | gt =>
    refine arrives_orderExits hb rfl hold ?_ ?_ ?_ hset hpass <;>
      simp [hflags, Relation.holds] <;> omega
  | ge =>
    refine arrives_orderExits hb rfl hold ?_ ?_ ?_ hset hpass <;>
      simp [hflags, Relation.holds] <;> omega
  | lt =>
    refine arrives_orderExits hb rfl hold ?_ ?_ ?_ hset hpass <;>
      simp [hflags, Relation.holds] <;> omega
  | le =>
    refine arrives_orderExits hb rfl hold ?_ ?_ ?_ hset hpass <;>
      simp [hflags, Relation.holds] <;> omega

/-- The lowest digits are tested; the carry is clear before and between. -/
theorem arrives_cellTests (hm : s.mem.Nibbles) (hb : s.bank = 0) (hpa : a.Placed)
    (hpb : b.Placed) (hab : a.cells = b.cells) {count : Nat} (hpos : count ≠ 0)
    (hcount : count ≤ a.cells) (hc : s.flags.carry = false)
    (hold : image.Holds ρ s.pc (closeTest yes no (cellTests rel a b n count))) :
    image.Arrives s { s.point with
      pc := ρ (if rel.holds (s.mem.number a.addr count) (s.mem.number b.addr count) then yes
        else no) } := by
  induction count generalizing s n with
  | zero => exact absurd rfl hpos
  | succ count ih =>
    rw [cellTests, closeTest_append, closeTest_append, closeTest_map_line, List.append_assoc] at hold
    obtain ⟨hcell, hexits⟩ := (Image.holds_append ..).1 hold
    obtain ⟨hexits, hlower⟩ := (Image.holds_append ..).1 hexits
    obtain ⟨t, hst, hsame, hflags⟩ := performAll_compareCell (x := a.addr + count)
      (y := b.addr + count) hb hm hc (Var.cell_lt hpa hcount) (Var.cell_lt hpb (hab ▸ hcount))
    refine .of_performAll hcell hst ?_
    rw [← hsame.point_eq]
    refine arrives_cellExits (hsame.bank.trans hb) hexits hflags (fun h => ?_) fun hxy hpass => ?_
    · -- the digits settle the outcome
      rw [Memory.number_succ, Memory.number_succ]
      by_cases hxy : s.mem.read (a.addr + count) = s.mem.read (b.addr + count)
      · obtain rfl : count = 0 := by simpa [hxy] using h
        simp
      · rw [Relation.holds_of_digit_ne (hm.number_lt ..) (hm.number_lt ..) hxy]
    · -- equal digits: the lower ones decide
      have hmem : t.mem.Nibbles := by rw [hsame.mem]; exact hm
      have hcarry : t.flags.carry = false := by simp [hflags, Flags.ofDigits, hxy]
      rw [Memory.number_succ, Memory.number_succ, hxy, Relation.holds_of_digit_eq, ← hsame.mem]
      let exits := closeTest yes no (cellExits rel n (count == 0))
      exact ih (s := { t with pc := s.pc + codeSize (compareCell a b count) + codeSize exits })
        hmem (hsame.bank.trans hb) (by simpa using hpass) (by omega) hcarry hlower

/-- The test `a rel b`. -/
theorem advances_relationTest (hm : p.mem.Nibbles) (hpa : a.Placed) (hpb : b.Placed)
    (hab : a.cells = b.cells)
    (hold : image.Holds ρ p.pc (closeTest yes no (relationTest rel a b n))) :
    image.Advances p { p with
      pc := ρ (if rel.holds (p.mem.get a) (p.mem.get b) then yes else no) } := by
  rw [Image.advances_iff]
  rintro s hb rfl
  let t : State := { s with flags := { s.flags with carry := false } }
  rw [relationTest, closeTest_line, ← List.singleton_append] at hold
  obtain ⟨hcarry, hcells⟩ := (Image.holds_append ..).1 hold
  refine .of_performAll hcarry one_pos (t := t) rfl ?_
  have htest := arrives_cellTests (s := { t with pc := s.pc + 1 }) hm hb hpa hpb hab
    a.cells_pos.ne' le_rfl rfl hcells
  rw [Memory.get, Memory.get, ← hab]
  exact htest

/-! ### Tests of one scalar -/

/-- Bits of a cell are tested: the zero flag is set if none of them is. -/
theorem performAll_mask (mask addr : Nat) (hb : s.bank = 0) (hm : s.mem.Nibbles)
    (hmask : mask < 16) (haddr : addr < 4096) :
    ∃ t, s.performAll [loadImm mask, toLow, load addr, alu .and] = some t ∧ s.Same t ∧
      JumpKind.jz.taken t.flags = (s.mem.read addr &&& mask == 0) := by
  let r := AluOp.and.apply (s.mem.read addr) mask s.flags
  refine ⟨{ s with acc := r.1, bl := mask, flags := r.2 }, ?_, ⟨rfl, rfl, rfl, rfl⟩, ?_⟩
  · simp [hb, haddr, r, Nat.mod_eq_of_lt hmask]
  · simp [r, AluOp.apply, AluOp.result, JumpKind.taken, Nat.mod_eq_of_lt (hm _),
      Nat.mod_eq_of_lt hmask]

/-- The lowest cell tells whether a number is odd. -/
theorem get_mod_two {m : Memory} : m.get v % 2 = m.read v.addr % 2 := by
  rw [Memory.get, ← Nat.sub_add_cancel v.cells_pos, Memory.number_succ_left]
  omega

/-- The test whether a scalar is odd. -/
theorem advances_oddTest (hm : p.mem.Nibbles) (hv : v.Placed)
    (hold : image.Holds ρ p.pc (closeTest yes no (oddTest v))) :
    image.Advances p { p with pc := ρ (if p.mem.get v % 2 = 1 then yes else no) } := by
  rw [Image.advances_iff]
  rintro s hb rfl
  rw [oddTest, closeTest_append, closeTest_map_line] at hold
  obtain ⟨hload, hjz, hjmp, -⟩ := (Image.holds_append ..).1 hold
  obtain ⟨t, hst, hsame, hzero⟩ := performAll_mask 1 _ hb hm (by decide)
    (Var.cell_lt hv v.cells_pos)
  rw [Nat.and_one_is_mod, Var.cell, Nat.add_zero, ← get_mod_two] at hzero
  refine .of_performAll hload (Nat.succ_pos _) hst ?_
  show image.Arrives _ { s.point with pc := ρ (if s.mem.get v % 2 = 1 then yes else no) }
  rw [← hsame.point_eq]
  by_cases hodd : s.mem.get v % 2 = 1
  · rw [if_pos hodd]
    refine .of_passed hjz ?_ (.of_taken hjmp rfl (.here ⟨rfl, hsame.bank.trans hb, rfl, rfl, rfl⟩))
    simp [hzero, hodd]
  · rw [if_neg hodd]
    refine .of_taken hjz ?_ (.here ⟨rfl, hsame.bank.trans hb, rfl, rfl, rfl⟩)
    simp [hzero]
    omega

/-- A scan for a cell that is not zero, with zero in `B` and the carry clear. -/
theorem arrives_scan {target : String} {addrs : List Nat} {lines : List Line}
    (hm : s.mem.Nibbles) (hb : s.bank = 0) (hbl : s.bl = 0) (hc : s.flags.carry = false)
    (haddrs : ∀ addr ∈ addrs, addr < 4096) {zero : Prop} [Decidable zero]
    (hzero : zero ↔ ∀ addr ∈ addrs, s.mem.read addr = 0)
    (hlines : lines = addrs.flatMap fun addr => [load addr, cmp, jump .ja target])
    (hold : image.Holds ρ s.pc lines) :
    image.Arrives s { s.point with
      pc := if zero then s.pc + codeSize lines else ρ target } := by
  induction addrs generalizing s lines zero with
  | nil =>
    subst hlines
    rw [if_pos (hzero.2 (by simp))]
    exact .here ⟨rfl, hb, rfl, rfl, rfl⟩
  | cons addr addrs ih =>
    rw [List.flatMap_cons] at hlines
    have hold' : image.Holds ρ s.pc ([load addr, cmp] ++ jump .ja target ::
      addrs.flatMap fun addr => [load addr, cmp, jump .ja target]) := hlines ▸ hold
    obtain ⟨hload, hja, hrest⟩ := (Image.holds_append ..).1 hold'
    have haddr := haddrs addr List.mem_cons_self
    let t : State := { s with acc := s.mem.read addr,
                              flags := Flags.compare (s.mem.read addr) 0 s.flags }
    have hst : s.performAll [load addr, cmp] = some t := by simp [hb, haddr, hbl, t]
    have hflags : t.flags = .ofDigits (s.mem.read addr) 0 := by
      simp [t, Flags.compare, Flags.ofDigits, hc, Nat.mod_eq_of_lt (hm _)]
    refine .of_performAll hload hst ?_
    rw [List.forall_mem_cons] at hzero
    by_cases haddr : s.mem.read addr = 0
    · let u : State := { t with pc := s.pc + codeSize [load addr, cmp] + 1 }
      have hend : s.pc + codeSize lines = u.pc + codeSize (addrs.flatMap
          fun addr => [load addr, cmp, jump .ja target]) := by
        rw [hlines, codeSize_append, ← Nat.add_assoc]
        rfl
      rw [hend]
      refine .of_passed hja (by simp [hflags, haddr]) ?_
      exact ih (s := u) hm hb hbl (by simp [u, hflags, Flags.ofDigits])
        (fun x hx => haddrs x (List.mem_cons_of_mem _ hx)) (by rw [hzero]; simp [haddr, u, t])
        rfl hrest
    · rw [if_neg fun h => haddr (hzero.1 h).1]
      exact .of_taken hja (by simp [hflags, Nat.pos_of_ne_zero haddr])
        (.here ⟨rfl, hb, rfl, rfl, rfl⟩)

theorem get_eq_zero_iff {m : Memory} :
    m.get v = 0 ↔ ∀ addr ∈ v.cellList, m.read addr = 0 := by
  simp only [Memory.get, Var.cellList, List.mem_map, List.mem_range, forall_exists_index, and_imp,
    forall_apply_eq_imp_iff₂, Var.cell]
  induction v.cells with
  | zero => simp
  | succ count ih =>
    rw [Memory.number_succ, Nat.add_eq_zero_iff, ih, Nat.mul_eq_zero]
    rw [Nat.forall_lt_succ_right]
    simp

theorem cellList_lt (hv : v.Placed) : ∀ addr ∈ v.cellList, addr < 4096 := by
  intro addr haddr
  obtain ⟨i, hi, rfl⟩ := List.mem_map.1 haddr
  exact Var.cell_lt hv (List.mem_range.1 hi)

/-- The test whether a scalar is not zero. -/
theorem advances_nonzeroTest (hm : p.mem.Nibbles) (hv : v.Placed)
    (hold : image.Holds ρ p.pc (closeTest yes no (nonzeroTest v))) :
    image.Advances p { p with pc := ρ (if p.mem.get v = 0 then no else yes) } := by
  rw [Image.advances_iff]
  rintro s hb rfl
  have hclose : closeTest yes no (nonzeroTest v) = [carry 0, loadImm 0, toLow] ++
      ((v.cellList.flatMap fun addr => [load addr, cmp, jump .ja yes]) ++ [jump .jmp no]) := by
    simp only [nonzeroTest, closeTest_append, closeTest_map_line, List.append_assoc]
    congr 2
    induction v.cellList with
    | nil => rfl
    | cons addr addrs ih => simp [List.flatMap_cons, ih]
  rw [hclose] at hold
  obtain ⟨hstart, hrest⟩ := (Image.holds_append ..).1 hold
  obtain ⟨hscan, hjmp, -⟩ := (Image.holds_append ..).1 hrest
  let t : State := { s with acc := 0, bl := 0, flags := { s.flags with carry := false } }
  refine .of_performAll hstart (by decide) (t := t) (by simp [t]) ?_
  have harrives := arrives_scan (s := { t with pc := s.pc + 3 }) hm hb rfl rfl (cellList_lt hv)
    get_eq_zero_iff rfl hscan
  refine harrives.leads ?_
  show image.Leads { s.point with pc := if s.mem.get v = 0 then _ else ρ yes }
    { s.point with pc := ρ (if s.mem.get v = 0 then no else yes) }
  by_cases hzero : s.mem.get v = 0
  · rw [if_pos hzero, if_pos hzero]
    exact (Image.advances_jump (p := { s.point with pc := _ }) hjmp).leads
  · rw [if_neg hzero, if_neg hzero]
    exact .refl _

end

end Code

end NibblePascal
