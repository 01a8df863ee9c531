import NibblePascal.Proofs.Fragments.Element
import NibblePascal.Proofs.Generation.Labels
import NibblePascal.Proofs.Generation.Statement
import NibblePascal.Proofs.Machine.Stretch
import NibblePascal.Proofs.Simulation.Statement

/-!
# Arrays as generated

An element is moved between its cells and a scalar, whatever the index holds: of the index the
lowest byte counts, and the offset of the element wraps at the end of the slot.  So an access does
not leave the slot of its array, and for indices within the array the laws of arrays hold.

An array is filled with constants, or with the cells of another array, by straight code.  It does
not matter in which state it begins, and nothing but the cells that are filled changes.
-/

namespace NibblePascal

/-! ### Elements in memory -/

namespace ArrayVar

variable {a b : ArrayVar} {x y i j : Nat}

/-- The cell number `i` of the element that an index finds. -/
def elementCell (a : ArrayVar) (index i : Nat) : Nat :=
  a.base + ((index % slotSize) * a.width.cells % slotSize + i)

theorem elementCell_eq (a : ArrayVar) (index i : Nat) :
    a.elementCell index i = a.base + a.offset index + i := by
  rw [← offset_mod, Nat.add_assoc]
  rfl

/-- An element lies in the slot. -/
theorem elementCell_within (index : Nat) (hi : i < a.width.cells) :
    a.base ≤ a.elementCell index i ∧ a.elementCell index i < a.base + slotSize :=
  ⟨Nat.le_add_right .., Nat.add_lt_add_left (offset_add_lt (index % slotSize) hi) _⟩

theorem offset_of_lt (hsize : a.size ≤ slotSize) (hx : x < a.len) :
    a.offset x = x * a.width.cells := by
  refine Nat.mod_eq_of_lt (lt_of_lt_of_le ?_ hsize)
  have hpos : 0 < a.width.cells := by cases a.width <;> decide
  exact Nat.mul_lt_mul_of_pos_right hx hpos

/-- Two elements have no cell in common. -/
theorem elementCell_ne (hsize : a.size ≤ slotSize) (hx : x < a.len) (hy : y < a.len) (hne : x ≠ y)
    (hi : i < a.width.cells) (hj : j < a.width.cells) : a.elementCell x i ≠ a.elementCell y j := by
  rw [elementCell_eq, elementCell_eq, offset_of_lt hsize hx, offset_of_lt hsize hy]
  cases hw : a.width <;> simp only [hw, Width.cells] at * <;> omega

theorem slotSize_dvd_base (ha : a.Placed) : slotSize ∣ a.base := by
  obtain ⟨k, -, hk⟩ := ha.slot
  refine ⟨a.bank * 16 + k, ?_⟩
  unfold base slotSize at *
  omega

/-- Two slots have no cell in common. -/
theorem base_add_ne (ha : a.Placed) (hb : b.Placed) (hne : a.base ≠ b.base) (hi : i < slotSize)
    (hj : j < slotSize) : a.base + i ≠ b.base + j := by
  obtain ⟨k, hk⟩ := slotSize_dvd_base ha
  obtain ⟨l, hl⟩ := slotSize_dvd_base hb
  have hdiv : ∀ n p, p < slotSize → (slotSize * n + p) / slotSize = n := by
    intro n p hp
    rw [Nat.mul_add_div (by decide), Nat.div_eq_of_lt hp, Nat.add_zero]
  rw [hk, hl] at hne ⊢
  intro h
  refine hne (congrArg (slotSize * ·) ?_)
  rw [← hdiv k i hi, h, hdiv l j hj]

/-- A scalar has no cell in a slot. -/
theorem not_covers {u : Var} (hu : u.Placed) (ha : a.Placed) (k : Nat) :
    ¬ u.Covers (a.base + k) := by
  intro hcov
  have hplaced : u.addr + u.cells ≤ 4096 := hu
  have := base_ge ha
  have := hcov.2
  omega

end ArrayVar

namespace Memory

variable {m m' : Memory} {n x y : Nat} {src dst : Nat → Nat} {scratch : Var}

/-- The number in an element. -/
def element (m : Memory) (a : ArrayVar) (index : Nat) : Nat :=
  m.number (a.base + a.offset index) a.width.cells

/-- The memory `m'` is `m` with the contents of the cells `src 0, …, src (n - 1)` in the cells
`dst 0, …, dst (n - 1)`, up to the cells of a scratch. -/
structure Moved (m : Memory) (n : Nat) (src dst : Nat → Nat) (scratch : Var) (m' : Memory) :
    Prop where
  moved : ∀ i < n, m'.read (dst i) = m.read (src i)
  rest : ∀ addr, ¬ scratch.Covers addr → (∀ i < n, addr ≠ dst i) → m'.read addr = m.read addr

/-- The memory `m'` is `m` in all arrays but `a` and in all scalars that have no cell in common with
a scratch. -/
structure SameElsewhere (m : Memory) (a : ArrayVar) (scratch : Var) (m' : Memory) : Prop where
  arrays : ∀ b : ArrayVar, b.Placed → b.base ≠ a.base → ∀ k < slotSize,
    m'.read (b.base + k) = m.read (b.base + k)
  scalars : ∀ u : Var, u.Placed → u.Apart scratch → m'.get u = m.get u

theorem Moved.number_eq (h : m.Moved n src dst scratch m') (hsrc : ∀ i, src i = x + i)
    (hdst : ∀ i, dst i = y + i) : m'.number y n = m.number x n := by
  refine number_congr fun i hi => ?_
  rw [← hdst, ← hsrc]
  exact h.moved i hi

end Memory

/-! ### Access to an element -/

/-- What an access to an element works on: the array, the index, a scalar of the width of the
elements, and a byte that has no cell in common with the two scalars. -/
structure Access (a : ArrayVar) (index v offset : Var) : Prop where
  array : a.Placed
  placed : ∀ u ∈ [index, v, offset], u.Placed
  width : v.width = a.width
  byte : offset.width = .byte
  fresh : ∀ u ∈ [index, v], u.Apart offset

namespace Access

variable {a : ArrayVar} {index v offset : Var} {m : Memory} (h : Access a index v offset)

include h

theorem cells_eq : v.cells = a.width.cells := congrArg Width.cells h.width

theorem get_eq (m : Memory) : m.get v = m.number v.addr a.width.cells := by
  rw [Memory.get, h.cells_eq]

theorem transforms_write (hm : m.Nibbles) :
    ∃ m', Transforms (Code.writeElement a index v offset) m m'
      ∧ m.Moved a.width.cells v.cell (a.elementCell (m.get index)) offset m' := by
  obtain ⟨m', htransforms, hm', hrest, hnumber⟩ := Code.transforms_writeElement hm h.array
    (h.placed index (by simp)) (h.placed offset (by simp)) (h.placed v (by simp)) h.byte h.width
    (h.fresh index (by simp)) (h.fresh v (by simp))
  refine ⟨m', htransforms, fun i hi => ?_, fun addr hscratch hne => ?_⟩
  · rw [ArrayVar.elementCell_eq]
    rw [h.get_eq] at hnumber
    exact Memory.read_eq_of_number_eq hm hm' hnumber hi
  · refine hrest addr hscratch fun hin => ?_
    refine hne (addr - (a.base + a.offset (m.get index))) (by omega) ?_
    rw [ArrayVar.elementCell_eq]
    omega

theorem transforms_read (hm : m.Nibbles) :
    ∃ m', Transforms (Code.readElement a index v offset) m m'
      ∧ m.Moved a.width.cells (a.elementCell (m.get index)) v.cell offset m' := by
  obtain ⟨m', htransforms, hm', hsame, hnumber⟩ := Code.transforms_readElement hm h.array
    (h.placed index (by simp)) (h.placed offset (by simp)) (h.placed v (by simp)) h.byte h.width
    (h.fresh index (by simp)) (h.fresh v (by simp))
  refine ⟨m', htransforms, fun i hi => ?_, fun addr hscratch hne => ?_⟩
  · rw [ArrayVar.elementCell_eq]
    rw [h.get_eq] at hnumber
    exact Memory.read_eq_of_number_eq hm hm' hnumber hi
  · refine hsame addr fun u hu hcov => ?_
    rcases List.mem_pair.1 hu with rfl | rfl
    · refine hne (addr - u.addr) ?_ ?_
      · rw [← h.cells_eq]
        have := hcov.2
        have := hcov.1
        omega
      · have := hcov.1
        unfold Var.cell
        omega
    · exact hscratch hcov

/-- What comes into an element comes into no other array and into no scalar, whatever the index. -/
theorem sameElsewhere {m' : Memory} {src : Nat → Nat} {x : Nat}
    (hmoved : m.Moved a.width.cells src (a.elementCell x) offset m') :
    m.SameElsewhere a offset m' where
  arrays b hb hne k hk := by
    refine hmoved.rest _ (ArrayVar.not_covers (h.placed offset (by simp)) hb k) fun i hi => ?_
    exact ArrayVar.base_add_ne hb h.array hne hk (ArrayVar.offset_add_lt (x % slotSize) hi)
  scalars u hu hapart := by
    refine Memory.get_congr fun addr hcov => hmoved.rest addr (fun hcov' => ?_) fun i hi => ?_
    · unfold Var.Covers at hcov hcov'
      unfold Var.Apart at hapart
      omega
    · rintro rfl
      exact ArrayVar.not_covers hu h.array _ hcov

/-- An element that is written holds the value. -/
theorem element_written {m' : Memory} {x : Nat}
    (hmoved : m.Moved a.width.cells v.cell (a.elementCell x) offset m') :
    m'.element a x = m.get v := by
  rw [h.get_eq]
  exact hmoved.number_eq (fun _ => rfl) (a.elementCell_eq x)

/-- The other elements of the array keep theirs. -/
theorem element_kept {m' : Memory} {x y : Nat}
    (hmoved : m.Moved a.width.cells v.cell (a.elementCell x) offset m')
    (hsize : a.size ≤ slotSize) (hx : x < a.len) (hy : y < a.len) (hne : y ≠ x) :
    m'.element a y = m.element a y := by
  refine Memory.number_congr fun i hi => ?_
  rw [← ArrayVar.elementCell_eq]
  exact hmoved.rest _ (ArrayVar.not_covers (h.placed offset (by simp)) h.array _)
    fun j hj => ArrayVar.elementCell_ne hsize hy hx hne hi hj

/-- A scalar into which an element is read holds its value. -/
theorem get_read {m' : Memory} {y : Nat}
    (hmoved : m.Moved a.width.cells (a.elementCell y) v.cell offset m') :
    m'.get v = m.element a y := by
  rw [h.get_eq]
  exact hmoved.number_eq (a.elementCell_eq y) fun _ => rfl

end Access

namespace Gen

variable {g : Generator} {a : ArrayVar} {x v o : Var} {s₁ : Stock}

/-- A fragment that works with a byte of its own. -/
theorem withByte_run (ho : g.stock.Takes .byte o s₁) (code : Var → List Line) :
    (do
      let offset ← temp .byte
      emit (code offset)
      recycle offset : Gen Unit) g = .ok () (g.grow (code o) (s₁.release o)) := by
  rw [← g.grow_stock, bind_run (temp_run ho), bind_run (emit_run ..), recycle_run]
  rfl

theorem readElement_run (ho : g.stock.Takes .byte o s₁) :
    readElement a x v g = .ok () (g.grow (Code.readElement a x v o) (s₁.release o)) :=
  withByte_run ho (Code.readElement a x v)

theorem writeElement_run (ho : g.stock.Takes .byte o s₁) (hw : a.width = v.width) :
    writeElement a x v g = .ok () (g.grow (Code.writeElement a x v o) (s₁.release o)) := by
  rw [writeElement, if_neg (not_not_intro hw)]
  exact withByte_run ho (Code.writeElement a x v)

end Gen

theorem Image.AtHead.completes {image : Image} {ρ : String → Nat} {lines : List Line} {s : State}
    {m : Memory} (h : image.AtHead ρ lines s) (ht : Transforms lines s.mem m) :
    ∃ t, image.Completes lines s t ∧ t.bank = 0 ∧ t.mem = m := by
  obtain ⟨t, ht, hbank, hmem, -⟩ := Completes.of_turns (.of_transforms ht) h.holds h.bank
  exact ⟨t, ht, hbank, hmem⟩

namespace Access

variable {a : ArrayVar} {index v offset : Var} (h : Access a index v offset) {image : Image}
  {ρ : String → Nat} {s : State}

include h

theorem completes_write (hs : image.AtHead ρ (Code.writeElement a index v offset) s) :
    ∃ t, image.Completes (Code.writeElement a index v offset) s t ∧ t.bank = 0
      ∧ s.mem.Moved a.width.cells v.cell (a.elementCell (s.mem.get index)) offset t.mem := by
  obtain ⟨m, hm, hmoved⟩ := h.transforms_write hs.nibbles
  obtain ⟨t, ht, hbank, rfl⟩ := hs.completes hm
  exact ⟨t, ht, hbank, hmoved⟩

theorem completes_read (hs : image.AtHead ρ (Code.readElement a index v offset) s) :
    ∃ t, image.Completes (Code.readElement a index v offset) s t ∧ t.bank = 0
      ∧ s.mem.Moved a.width.cells (a.elementCell (s.mem.get index)) v.cell offset t.mem := by
  obtain ⟨m, hm, hmoved⟩ := h.transforms_read hs.nibbles
  obtain ⟨t, ht, hbank, rfl⟩ := hs.completes hm
  exact ⟨t, ht, hbank, hmoved⟩

end Access

/-- The code that is generated for a write to an element sets its cells, and that for a read gets
them, and neither changes anything else but its offset.  The index may be any number: the cells stay
within the slot.  So what is written at an index is read there, and no other element of the array
changes. -/
theorem element_access_exact {g h : Generator} {a : ArrayVar} {x v o y w p : Var} {s₁ s₂ : Stock}
    (ho : g.stock.Takes .byte o s₁) (hp : h.stock.Takes .byte p s₂) (hw : Access a x v o)
    (hr : Access a y w p) :
    ∃ writing reading, Gen.writeElement a x v g = .ok () (g.grow writing (s₁.release o))
      ∧ Gen.readElement a y w h = .ok () (h.grow reading (s₂.release p))
      ∧ (∀ (image : Image) (ρ : String → Nat) (s : State), image.AtHead ρ writing s →
        ∃ t, image.Completes writing s t ∧ t.bank = 0
          ∧ s.mem.Moved a.width.cells v.cell (a.elementCell (s.mem.get x)) o t.mem
          ∧ s.mem.SameElsewhere a o t.mem)
      ∧ (∀ (image : Image) (ρ : String → Nat) (s : State), image.AtHead ρ reading s →
        ∃ t, image.Completes reading s t ∧ t.bank = 0
          ∧ s.mem.Moved a.width.cells (a.elementCell (s.mem.get y)) w.cell p t.mem)
      ∧ (∀ index, ∀ i < a.width.cells,
        a.base ≤ a.elementCell index i ∧ a.elementCell index i < a.base + slotSize)
      ∧ ∀ (image image' : Image) (ρ ρ' : String → Nat) (s t s' t' : State),
        image.AtHead ρ writing s → image.Completes writing s t →
        (∀ k < slotSize, s'.mem.read (a.base + k) = t.mem.read (a.base + k)) →
        image'.AtHead ρ' reading s' → image'.Completes reading s' t' →
        (s'.mem.get y = s.mem.get x → t'.mem.get w = s.mem.get v)
          ∧ (a.size ≤ slotSize → s.mem.get x < a.len → s'.mem.get y < a.len →
            s'.mem.get y ≠ s.mem.get x → t'.mem.get w = s.mem.element a (s'.mem.get y)) := by
  refine ⟨_, _, Gen.writeElement_run ho hw.width.symm, Gen.readElement_run hp, ?_,
    fun image ρ s hs => hr.completes_read hs, fun index i => ArrayVar.elementCell_within index, ?_⟩
  · intro image ρ s hs
    obtain ⟨t, ht, hbank, hmoved⟩ := hw.completes_write hs
    exact ⟨t, ht, hbank, hmoved, hw.sameElsewhere hmoved⟩
  · intro image image' ρ ρ' s t s' t' hs ht hslot hs' ht'
    obtain ⟨u, hu, -, hmoved⟩ := hw.completes_write hs
    obtain rfl := ht.unique hu
    obtain ⟨u', hu', -, hmoved'⟩ := hr.completes_read hs'
    obtain rfl := ht'.unique hu'
    have hsame : ∀ k, s'.mem.element a k = t.mem.element a k := by
      intro k
      refine Memory.number_congr fun i hi => ?_
      rw [Nat.add_assoc]
      exact hslot _ (ArrayVar.offset_add_lt k hi)
    rw [hr.get_read hmoved', hsame]
    constructor
    · intro heq
      rw [heq]
      exact hw.element_written hmoved
    · intro hsize hx hy hne
      exact hw.element_kept hmoved hsize hx hy hne

/-- A write to a word in the middle of a slot, through a byte, in an image of nothing else: the
offset is shifted twice and stepped from cell to cell. -/
theorem element_access_exact_of_word :
    let a : ArrayVar := ⟨"a", .word, 0x200, 64, 1, ""⟩
    let x : Var := ⟨"x", .byte, 0, "", false⟩
    let v : Var := ⟨"v", .word, 2, "", false⟩
    let o : Var := ⟨"$SYS0", .byte, 6, "", true⟩
    let g : Generator := { memory := { free := 8, pools := { bytes := [o] } } }
    let m := (Memory.blank.set x 0x25).set v 0xBEE5
    ∃ s₁, g.stock.Takes .byte o s₁ ∧ Access a x v o ∧ m.Nibbles
      ∧ ∃ (writing : List Line) (image : Image) (ρ : String → Nat),
        Gen.writeElement a x v g = .ok () (g.grow writing (s₁.release o))
        ∧ image.AtHead ρ writing { mem := m }
        ∧ ∃ t, image.Completes writing { mem := m } t ∧ t.bank = 0
          ∧ t.mem.element a 0x25 = 0xBEE5 ∧ m.SameElsewhere a o t.mem := by
  intro a x v o g m
  have h : Access a x v o :=
    ⟨⟨by decide, by decide, 2, by decide, rfl⟩, by simp [Var.Placed, x, v, o]; decide, rfl, rfl,
      by simp [Var.Apart, x, v, o]; decide⟩
  have hm : m.Nibbles := Memory.nibbles_set (Memory.nibbles_set Memory.nibbles_blank)
  have hx : m.get x = 0x25 :=
    (Memory.get_set_of_apart (.inl (by decide))).trans (Memory.get_set_same (h.placed x (by simp)))
  have hv : m.get v = 0xBEE5 := Memory.get_set_same (h.placed v (by simp))
  have ho : g.stock.Takes .byte o ⟨{ free := 8 }, 0⟩ := ⟨_, rfl, rfl⟩
  obtain ⟨writing, reading, hwriting, -, hwrite, -⟩ := element_access_exact ho ho h h
  obtain rfl : writing = Code.writeElement a x v o := by
    obtain ⟨-, hgrow⟩ := EStateM.Result.ok.inj (hwriting.symm.trans (Gen.writeElement_run ho rfl))
    simpa [Generator.lines_grow] using congrArg (·.code.lines) hgrow
  have hstraight : AllStraight (Code.writeElement a x v o) := Code.allStraight_writeElement
  have hclosed : Image.Closed (Code.writeElement a x v o) :=
    ⟨by simp [hstraight.labelNames_eq], by simp [hstraight.jumpTargets_eq], hstraight.noRaw⟩
  obtain ⟨image, -, hholds, -⟩ := hclosed.exists_image
  have hs : image.AtHead _ (Code.writeElement a x v o) { mem := m } := ⟨hholds, rfl, hm⟩
  obtain ⟨t, ht, hbank, hmoved, hsame⟩ := hwrite _ _ _ hs
  have helement := h.element_written hmoved
  rw [hx, hv] at helement
  exact ⟨_, ho, h, hm, _, image, _, hwriting, hs, t, ht, hbank, helement, hsame⟩

/-! ### Arrays as a whole -/

section Pieces

variable {α β : Type} {f : α → List β} {c : Nat}

theorem length_flatMap_of_length (hf : ∀ x, (f x).length = c) (l : List α) :
    (l.flatMap f).length = l.length * c := by
  simp [List.length_flatMap, hf]

/-- Lists of one length in a row, by list and place. -/
theorem getElem?_flatMap_of_length (hf : ∀ x, (f x).length = c) (l : List α) {i j : Nat}
    (hj : j < c) : (l.flatMap f)[i * c + j]? = l[i]?.bind fun x => (f x)[j]? := by
  induction l generalizing i with
  | nil => simp
  | cons x l ih =>
    rw [List.flatMap_cons]
    cases i with
    | zero => simp [List.getElem?_append_left, hf, hj]
    | succ i =>
      have hplace : (i + 1) * c + j = (f x).length + (i * c + j) := by rw [hf]; ring
      rw [hplace, List.getElem?_append_right (Nat.le_add_right ..), Nat.add_sub_cancel_left, ih,
        List.getElem?_cons_succ]

end Pieces

/-- From every state, the lines that the computation puts behind the code lead to their end, with
bank 0 selected and a memory that `Q` relates to the one before. -/
def Gen.Achieves (code : Gen Unit) (Q : Memory → Memory → Prop) : Prop :=
  ∀ g : Generator, ∃ lines, code g = .ok () (g.grow lines g.stock)
    ∧ ∀ (image : Image) (ρ : String → Nat) (s : State), image.Holds ρ s.pc lines →
      ∃ t, image.Completes lines s t ∧ t.bank = 0 ∧ Q s.mem t.mem

theorem Gen.Achieves.of_performAll {code : Gen Unit} {lines : List Line}
    {Q : Memory → Memory → Prop} (hrun : ∀ g, code g = .ok () (g.grow lines g.stock))
    (h : ∀ s : State, ∃ t, s.performAll lines = some t ∧ t.bank = 0 ∧ Q s.mem t.mem) :
    code.Achieves Q := by
  refine fun g => ⟨lines, hrun g, fun image ρ s hold => ?_⟩
  obtain ⟨t, ht, hbank, hQ⟩ := h s
  exact ⟨_, .of_performAll hold ht, hbank, hQ⟩

namespace Memory

variable {m : Memory} {a src dst : ArrayVar} {cells : List Nat}

/-- The cells from `lo` to below `lo + n`. -/
def Span (lo n : Nat) (addr : Nat) : Prop := lo ≤ addr ∧ addr < lo + n

theorem read_fill_of_getElem? (ha : a.Placed) (hlen : cells.length ≤ slotSize) {k x : Nat}
    (hx : cells[k]? = some x) : (m.fill a.base 0 cells).read (a.base + k) = x % 16 := by
  have hk : k < cells.length := (List.getElem?_eq_some_iff.1 hx).1
  rw [read_fill (ArrayVar.slot_le ha) (by simpa using hlen), Nat.add_zero, if_pos (by omega),
    Nat.add_sub_cancel_left, hx, Option.getD_some]

theorem sameBut_fill (ha : a.Placed) (hlen : cells.length ≤ slotSize) :
    m.SameBut (Span a.base cells.length) (m.fill a.base 0 cells) := by
  intro addr haddr
  unfold Span at haddr
  rw [read_fill (ArrayVar.slot_le ha) (by simpa using hlen), Nat.add_zero, if_neg haddr]

section Copy

variable (hs : src.Placed) (hd : dst.Placed) {n : Nat} (hn : n ≤ slotSize)

include hs hd hn

/-- Every cell is read before it is written, in one slot as well as in two. -/
theorem copy_in_order (k : Nat) (hk : k < n) :
    ¬ (dst.base ≤ src.base + k ∧ src.base + k < dst.base + k) := by
  intro hover
  by_cases heq : src.base = dst.base
  · omega
  · exact ArrayVar.base_add_ne hs hd heq (hk.trans_le hn) (by omega)
      (Nat.add_sub_of_le hover.1).symm

theorem read_copy_of_lt {k : Nat} (hk : k < n) :
    (m.copy src.base dst.base n).read (dst.base + k) = m.read (src.base + k) := by
  rw [read_copy (ArrayVar.slot_le hd) hn (copy_in_order hs hd hn), if_pos (by omega),
    Nat.add_sub_cancel_left]

theorem sameBut_copy : m.SameBut (Span dst.base n) (m.copy src.base dst.base n) := by
  intro addr haddr
  unfold Span at haddr
  rw [read_copy (ArrayVar.slot_le hd) hn (copy_in_order hs hd hn), if_neg haddr]

end Copy

end Memory

theorem length_valueCells (w : Width) (values : List Nat) :
    (valueCells w values).length = values.length * w.cells :=
  length_flatMap_of_length (fun x => by simp [Width.split]) values

theorem ArrayVar.length_valueCells_le (a : ArrayVar) (hsize : a.size ≤ slotSize)
    {values : List Nat} (hlen : values.length ≤ a.len) :
    (valueCells a.width values).length ≤ slotSize := by
  rw [length_valueCells]
  exact (Nat.mul_le_mul_right _ hlen).trans hsize

/-- Numbers become the elements of an array that is filled with their cells. -/
theorem ArrayVar.element_fill {a : ArrayVar} (ha : a.Placed) (hsize : a.size ≤ slotSize)
    {values : List Nat} (hlen : values.length ≤ a.len) (m : Memory) {i x : Nat}
    (hx : values[i]? = some x) :
    (m.fill a.base 0 (valueCells a.width values)).element a i = x % 16 ^ a.width.cells := by
  have hi : i < a.len := (List.getElem?_eq_some_iff.1 hx).1.trans_le hlen
  have hcells := a.length_valueCells_le hsize hlen
  have hslot : ∀ j < a.width.cells, a.offset i + j < slotSize := fun j hj => offset_add_lt i hj
  refine Memory.number_of_digits ?_ fun j hj => ?_
  · have := hslot (a.width.cells - 1) (by cases a.width <;> decide)
    have := slot_le ha
    omega
  · have hsplit : (a.width.split x)[j]? = some (x / 16 ^ j % 16) := by
      simp [Width.split, hj]
    have hdigit : (valueCells a.width values)[i * a.width.cells + j]? =
        some (x / 16 ^ j % 16) := by
      rw [valueCells, getElem?_flatMap_of_length (fun x => by simp [Width.split]) values hj, hx]
      exact hsplit
    rw [offset_of_lt hsize hi, Nat.add_assoc, Memory.read_fill_of_getElem? ha hcells hdigit,
      Nat.mod_mod]

/-- The cells of a text, two for each character. -/
theorem textCells_eq_ok {text : List Char} (h : ∀ c ∈ text, c.toNat ≤ 0xFF) :
    textCells text = .ok (text.flatMap fun c => [c.toNat % 16, c.toNat / 16]) := by
  induction text with
  | nil => rfl
  | cons c text ih =>
    obtain ⟨hc, htext⟩ := List.forall_mem_cons.1 h
    simp [textCells, ih htext, Nat.lt_succ_of_le hc]

theorem length_textCells (text : List Char) :
    (text.flatMap fun c => [c.toNat % 16, c.toNat / 16]).length = 2 * text.length := by
  rw [length_flatMap_of_length (c := 2) (fun _ => rfl), Nat.mul_comm]

/-- The halves of characters come into an array that is filled with their cells. -/
theorem ArrayVar.read_fill_text {a : ArrayVar} (ha : a.Placed) {text : List Char}
    (hlen : 2 * text.length ≤ slotSize) (htext : ∀ c ∈ text, c.toNat ≤ 0xFF) (m : Memory) {i : Nat}
    {c : Char} (hc : text[i]? = some c) :
    let m' := m.fill a.base 0 (text.flatMap fun c => [c.toNat % 16, c.toNat / 16])
    m'.read (a.base + 2 * i) = c.toNat % 16 ∧ m'.read (a.base + (2 * i + 1)) = c.toNat / 16 := by
  have hcells := (length_textCells text).trans_le hlen
  have hhalf : ∀ j < 2, (text.flatMap fun c => [c.toNat % 16, c.toNat / 16])[2 * i + j]? =
      [c.toNat % 16, c.toNat / 16][j]? := by
    intro j hj
    rw [Nat.mul_comm, getElem?_flatMap_of_length (c := 2) (fun _ => rfl) text hj, hc]
    rfl
  have hlow := Memory.read_fill_of_getElem? (m := m) ha hcells (hhalf 0 (by decide))
  have hhigh := Memory.read_fill_of_getElem? (m := m) ha hcells (hhalf 1 (by decide))
  have hchar : c.toNat / 16 < 16 := by
    have := htext c (List.mem_of_getElem? hc)
    omega
  exact ⟨hlow.trans (Nat.mod_mod ..), hhigh.trans (Nat.mod_eq_of_lt hchar)⟩

namespace Gen

variable {a src dst : ArrayVar} {cells : List Nat}

theorem achieves_fillArray (ha : a.Placed) {Q : Memory → Memory → Prop}
    (hQ : ∀ m : Memory, Q m (m.fill a.base 0 cells)) :
    (emit (Code.fillArray a cells)).Achieves Q := by
  have hrun : ∀ g, emit (Code.fillArray a cells) g =
      .ok () (g.grow (Code.fillArray a cells) g.stock) := fun g => rfl
  refine .of_performAll hrun fun s => ?_
  obtain ⟨t, ht, hbank, hmem, -⟩ := Code.performAll_fillArray ha cells s
  exact ⟨t, ht, hbank, hmem ▸ hQ s.mem⟩

theorem copyArray_run (hsize : src.size < 0x10000) (g : Generator) :
    copyArray src dst g = .ok () (g.grow
      (Code.comment (dst.name ++ " := " ++ src.name) :: Code.copyArray src dst) g.stock) := by
  rw [← g.grow_stock, copyArray, bind_run (emit_run ..), ArrayVar.checkedSize, if_pos hsize]
  exact emit_run ..

theorem achieves_copyArray (hs : src.Placed) (hd : dst.Placed) (hsize : src.size < 0x10000)
    {Q : Memory → Memory → Prop} (hQ : ∀ m : Memory, Q m (m.copy src.base dst.base src.size)) :
    (copyArray src dst).Achieves Q := by
  refine .of_performAll (copyArray_run hsize) fun s => ?_
  obtain ⟨t, ht, hbank, hmem, -⟩ := Code.performAll_copyArray hs hd s
  exact ⟨t, by simpa using ht, hbank, hmem ▸ hQ s.mem⟩

end Gen

/-- From every state of the machine, an array is filled with numbers, each modulo the width of the
elements, or with the characters of a text, the low half of each before the high one, or with the
cells of another array, and nothing else changes.  The other array may be in the same slot. -/
theorem array_fill_copy_exact {a : ArrayVar} (ha : a.Placed) (hsize : a.size ≤ slotSize) :
    (∀ values : List Nat, values.length ≤ a.len →
      (Gen.emit (Code.fillArray a (valueCells a.width values))).Achieves fun m m' =>
        (∀ i x, values[i]? = some x → m'.element a i = x % 2 ^ (4 * a.width.cells))
          ∧ m.SameBut (Memory.Span a.base (values.length * a.width.cells)) m')
    ∧ (∀ text : List Char, (∀ c ∈ text, c.toNat ≤ 0xFF) → 2 * text.length ≤ a.size →
      ∃ cells, textCells text = .ok cells
        ∧ (Gen.emit (Code.fillArray a cells)).Achieves fun m m' =>
          (∀ i c, text[i]? = some c → m'.read (a.base + 2 * i) = c.toNat % 16
            ∧ m'.read (a.base + (2 * i + 1)) = c.toNat / 16)
          ∧ m.SameBut (Memory.Span a.base (2 * text.length)) m')
    ∧ ∀ src : ArrayVar, src.Placed → src.width = a.width → src.len ≤ a.len →
      (Gen.copyArray src a).Achieves fun m m' =>
        (∀ k < src.size, m'.read (a.base + k) = m.read (src.base + k))
          ∧ m.SameBut (Memory.Span a.base src.size) m' := by
  refine ⟨fun values hlen => ?_, fun text htext hlen => ?_, fun src hs hw hlen => ?_⟩
  · have hcells := a.length_valueCells_le hsize hlen
    refine Gen.achieves_fillArray ha fun m => ⟨fun i x hx => ?_, ?_⟩
    · rw [pow_mul]
      exact ArrayVar.element_fill ha hsize hlen m hx
    · rw [← length_valueCells]
      exact Memory.sameBut_fill ha hcells
  · have hcells := (length_textCells text).trans_le (hlen.trans hsize)
    refine ⟨_, textCells_eq_ok htext, Gen.achieves_fillArray ha fun m => ⟨fun i c hc => ?_, ?_⟩⟩
    · exact ArrayVar.read_fill_text ha (hlen.trans hsize) htext m hc
    · rw [← length_textCells]
      exact Memory.sameBut_fill ha hcells
  · have hfit : src.size ≤ slotSize := by
      rw [ArrayVar.size, hw]
      exact (Nat.mul_le_mul_right _ hlen).trans hsize
    refine Gen.achieves_copyArray hs ha (hfit.trans_lt (by decide)) fun m => ⟨fun k hk => ?_, ?_⟩
    · exact Memory.read_copy_of_lt hs ha hfit hk
    · exact Memory.sameBut_copy hs ha hfit

/-- The longest array of bytes in the last slot, and a shorter one in the slot before. -/
theorem array_fill_copy_exact_in_last_slot :
    let a : ArrayVar := ⟨"a", .byte, 15 * 256, 128, 15, ""⟩
    let b : ArrayVar := ⟨"b", .byte, 14 * 256, 100, 15, ""⟩
    a.Placed ∧ a.size ≤ slotSize ∧ b.Placed ∧ b.width = a.width ∧ b.len ≤ a.len
      ∧ [300, 7].length ≤ a.len ∧ (∀ c ∈ ['~', 'ÿ'], c.toNat ≤ 0xFF)
      ∧ (Gen.emit (Code.fillArray a (valueCells a.width [300, 7]))).Achieves (fun m m' =>
        (∀ i x, [300, 7][i]? = some x → m'.element a i = x % 2 ^ (4 * a.width.cells))
          ∧ m.SameBut (Memory.Span a.base (2 * a.width.cells)) m')
      ∧ (∃ cells, textCells ['~', 'ÿ'] = .ok cells
        ∧ (Gen.emit (Code.fillArray a cells)).Achieves fun m m' =>
          (∀ i c, ['~', 'ÿ'][i]? = some c → m'.read (a.base + 2 * i) = c.toNat % 16
            ∧ m'.read (a.base + (2 * i + 1)) = c.toNat / 16)
          ∧ m.SameBut (Memory.Span a.base (2 * 2)) m')
      ∧ (Gen.copyArray b a).Achieves fun m m' =>
        (∀ k < b.size, m'.read (a.base + k) = m.read (b.base + k))
          ∧ m.SameBut (Memory.Span a.base b.size) m' := by
  intro a b
  have ha : a.Placed := ⟨by decide, by decide, 15, by decide, rfl⟩
  have hb : b.Placed := ⟨by decide, by decide, 14, by decide, rfl⟩
  have hsize : a.size ≤ slotSize := by decide
  have htext : ∀ c ∈ ['~', 'ÿ'], c.toNat ≤ 0xFF := by simp
  obtain ⟨hvalues, hchars, hcopy⟩ := array_fill_copy_exact ha hsize
  exact ⟨ha, hsize, hb, rfl, by decide, by decide, htext, hvalues [300, 7] (by decide),
    hchars _ htext (by decide), hcopy b hb rfl (by decide)⟩

end NibblePascal
