import NibblePascal.Code.Product
import NibblePascal.Code.Quotient
import NibblePascal.Code.Return
import NibblePascal.Code.Test
import NibblePascal.Proofs.Assembly.Tidied
import NibblePascal.Proofs.Fragments.Element

/-!
# Guarded code

Generated code names the cells that it uses: those of scalars in bank 0, and the slots of arrays
in the banks above.  Which bank is selected can be read off the lines, since a label or a jump
stands only where it is bank 0.

* `Territory`: the scalars and arrays that code may use;
* `T.Guards b lines b'`: from bank `b` on, the lines stay within the territory `T` and leave bank
  `b'` selected; `T.Keeps lines` is the case of bank 0 at both ends;
* `T.Plain lines`: the lines keep to scalars and select no other bank at all.

Tidying keeps code guarded, `Guards.tidied`.
-/

namespace NibblePascal

/-- The scalars and arrays that code may use. -/
structure Territory where
  scalar : Var → Prop
  array : ArrayVar → Prop

/-- The bank that is selected behind a line. -/
def Line.bankAfter (bank : Nat) : Line → Nat
  | .inst (.bnk v) => v % 16
  | _ => bank

namespace Territory

variable {T : Territory} {v : Var} {addr bank bank' : Nat} {l : Line} {lines a b : List Line}

/-- The cell is one of a scalar. -/
def Owns (T : Territory) (addr : Nat) : Prop := ∃ v, T.scalar v ∧ v.Covers addr

/-- The line may stand where a bank is selected. -/
def Allows (T : Territory) (bank : Nat) : Line → Prop
  | .inst (.lda (.mem addr)) | .inst (.sta (.mem addr)) => bank = 0 ∧ T.Owns addr
  | .inst (.lda (.banked addr)) | .inst (.sta (.banked addr)) =>
      ∃ r, T.array r ∧ r.bank = bank ∧ r.addr = addr
  | .inst (.jump _ _) | .label _ => bank = 0
  | .release addr => T.Owns addr
  | _ => True

/-- The lines may stand where `bank` is selected, and select `bank'` for what follows. -/
def Guards (T : Territory) : Nat → List Line → Nat → Prop
  | bank, [], bank' => bank = bank'
  | bank, l :: lines, bank' => T.Allows bank l ∧ Guards T (l.bankAfter bank) lines bank'

/-- The lines may stand where bank 0 is selected, and leave it so. -/
def Keeps (T : Territory) (lines : List Line) : Prop := T.Guards 0 lines 0

theorem guards_append :
    T.Guards bank (a ++ b) bank' ↔ ∃ mid, T.Guards bank a mid ∧ T.Guards mid b bank' := by
  induction a generalizing bank with
  | nil => simp [Guards]
  | cons l a ih => simp [Guards, ih, and_assoc]

theorem Keeps.nil : T.Keeps [] := rfl

theorem Keeps.append (ha : T.Keeps a) (hb : T.Keeps b) : T.Keeps (a ++ b) :=
  guards_append.2 ⟨0, ha, hb⟩

theorem Keeps.flatMap {α : Type} {xs : List α} {f : α → List Line} (h : ∀ x ∈ xs, T.Keeps (f x)) :
    T.Keeps (xs.flatMap f) := by
  induction xs with
  | nil => exact .nil
  | cons x xs ih => exact (h x (.head _)).append (ih fun y hy => h y (.tail _ hy))

/-! ### Tidied code -/

/-- Tidying takes out no line that selects a bank. -/
theorem Guards.tidied (h : T.Guards bank b bank') (ht : Tidied a b) : T.Guards bank a bank' := by
  induction ht generalizing bank with
  | nil => exact h
  | keep l _ ih => exact ⟨h.1, ih h.2⟩
  | @drop _ _ l hl _ ih =>
    have hbank : l.bankAfter bank = bank := by
      unfold Line.isLoose at hl
      split at hl <;> first | rfl | cases hl
    have hrest := h.2
    rw [hbank] at hrest
    exact ih hrest

/-! ### Lines that select no bank -/

/-- The line keeps to scalars and leaves bank 0 selected. -/
def Admits (T : Territory) (l : Line) : Prop := T.Allows 0 l ∧ l.bankAfter 0 = 0

/-- Lines that keep to scalars. -/
def Plain (T : Territory) (lines : List Line) : Prop := ∀ l ∈ lines, T.Admits l

theorem Plain.keeps (h : T.Plain lines) : T.Keeps lines := by
  induction lines with
  | nil => exact .nil
  | cons l lines ih =>
    obtain ⟨hallows, hbank⟩ := h l (.head _)
    refine ⟨hallows, ?_⟩
    rw [hbank]
    exact ih fun l' hl' => h l' (.tail _ hl')

@[simp] theorem plain_nil : T.Plain [] := by simp [Plain]

@[simp] theorem plain_cons : T.Plain (l :: lines) ↔ T.Admits l ∧ T.Plain lines := by simp [Plain]

@[simp] theorem plain_append : T.Plain (a ++ b) ↔ T.Plain a ∧ T.Plain b := by
  simp [Plain, or_imp, forall_and]

@[simp] theorem plain_flatMap {α : Type} {xs : List α} {f : α → List Line} :
    T.Plain (xs.flatMap f) ↔ ∀ x ∈ xs, T.Plain (f x) := by
  simp only [Plain, List.mem_flatMap]
  exact ⟨fun h x hx l hl => h l ⟨x, hx, hl⟩, fun h l ⟨x, hx, hl⟩ => h x hx l hl⟩

@[simp] theorem plain_map {α : Type} {xs : List α} {f : α → Line} :
    T.Plain (xs.map f) ↔ ∀ x ∈ xs, T.Admits (f x) := by simp [Plain]

@[simp] theorem admits_load : T.Admits (Code.load addr) ↔ T.Owns addr := by
  simp [Admits, Allows, Code.load, Line.bankAfter]

@[simp] theorem admits_store : T.Admits (Code.store addr) ↔ T.Owns addr := by
  simp [Admits, Allows, Code.store, Line.bankAfter]

@[simp] theorem admits_loadImm (n : Nat) : T.Admits (Code.loadImm n) := ⟨trivial, rfl⟩
@[simp] theorem admits_imm (n : Nat) : T.Admits (.inst (.lda (.imm n))) := ⟨trivial, rfl⟩
@[simp] theorem admits_alu (op : AluOp) : T.Admits (Code.alu op) := ⟨trivial, rfl⟩
@[simp] theorem admits_carry (n : Nat) : T.Admits (Code.carry n) := ⟨trivial, rfl⟩
@[simp] theorem admits_toLow : T.Admits Code.toLow := ⟨trivial, rfl⟩
@[simp] theorem admits_toHigh : T.Admits Code.toHigh := ⟨trivial, rfl⟩
@[simp] theorem admits_cmp : T.Admits Code.cmp := ⟨trivial, rfl⟩
@[simp] theorem admits_jump (kind : JumpKind) (target : String) :
    T.Admits (Code.jump kind target) := ⟨rfl, rfl⟩
@[simp] theorem admits_label (name : String) : T.Admits (.label name) := ⟨rfl, rfl⟩
@[simp] theorem admits_codeLabel (n : Nat) : T.Admits (Code.label n) := ⟨rfl, rfl⟩
@[simp] theorem admits_comment (text : String) : T.Admits (Code.comment text) := ⟨trivial, rfl⟩
@[simp] theorem admits_release : T.Admits (.release addr) ↔ T.Owns addr := by
  simp [Admits, Allows, Line.bankAfter]

@[simp] theorem admits_endProc (name : String) : T.Admits (.endProc name) := ⟨trivial, rfl⟩
@[simp] theorem admits_nop : T.Admits (.inst .nop) := ⟨trivial, rfl⟩
@[simp] theorem admits_out (port : Nat) : T.Admits (.inst (.out port)) := ⟨trivial, rfl⟩
@[simp] theorem admits_inp (port : Nat) : T.Admits (.inst (.inp port)) := ⟨trivial, rfl⟩

theorem owns_cell (h : T.scalar v) {i : Nat} (hi : i < v.cells) : T.Owns (v.cell i) :=
  ⟨v, h, Nat.le_add_right .., Nat.add_lt_add_left hi _⟩

theorem owns_of_mem_cellList (h : T.scalar v) (hi : addr ∈ v.cellList) : T.Owns addr := by
  obtain ⟨i, hlt, rfl⟩ := List.mem_map.1 hi
  exact owns_cell h (List.mem_range.1 hlt)

theorem owns_cell_zero (h : T.scalar v) : T.Owns (v.cell 0) := owns_cell h v.cells_pos

/-! ### Code for scalars -/

variable {src dst u w : Var}

theorem plain_copyCells (op : Option AluOp) {count : Nat} (hs : T.scalar src) (hd : T.scalar dst)
    (hsc : count ≤ src.cells) (hdc : count ≤ dst.cells) :
    T.Plain (Code.copyCells src dst op count) := by
  simp only [Code.copyCells, plain_flatMap, List.mem_range]
  intro i hi
  simp [owns_cell hs (hi.trans_le hsc), owns_cell hd (hi.trans_le hdc)]

theorem plain_assign (op : Option AluOp) (hs : T.scalar src) (hd : T.scalar dst)
    (hw : src.cells ≤ dst.cells) : T.Plain (Code.assign src dst op) :=
  plain_copyCells op hs hd le_rfl hw

theorem plain_clearFrom (start : Nat) (h : T.scalar v) : T.Plain (Code.clearFrom v start) := by
  simp only [Code.clearFrom, plain_cons, admits_loadImm, true_and, plain_map, admits_store]
  exact fun addr haddr => owns_of_mem_cellList h (List.mem_of_mem_drop haddr)

theorem plain_constant (value : Nat) (h : T.scalar dst) : T.Plain (Code.constant value dst) := by
  simp only [Code.constant, plain_flatMap, List.mem_range]
  intro i hi
  simp [owns_cell h hi]

theorem plain_resize (hs : T.scalar src) (hd : T.scalar dst) : T.Plain (Code.resize src dst) := by
  rw [Code.resize, plain_append]
  refine ⟨plain_copyCells none hs hd (Nat.min_le_left ..) (Nat.min_le_right ..), ?_⟩
  split
  exacts [plain_clearFrom _ hd, plain_nil]

theorem plain_extract {start : Nat} (hs : T.scalar src) (hd : T.scalar dst)
    (hc : start + dst.cells ≤ src.cells) : T.Plain (Code.extract src start dst) := by
  simp only [Code.extract, plain_flatMap, List.mem_range]
  intro i hi
  simp [owns_cell hd hi, owns_cell hs (i := start + i) (by omega)]

theorem plain_combine (op : AluOp) (hu : T.scalar u) (hw : T.scalar w) (hd : T.scalar dst)
    (huw : u.cells ≤ w.cells) (hud : u.cells ≤ dst.cells) :
    T.Plain (Code.combine op u w dst) := by
  simp only [Code.combine, plain_cons, admits_comment, true_and, plain_flatMap, List.mem_range]
  intro i hi
  split <;> simp [owns_cell hu hi, owns_cell hw (hi.trans_le huw), owns_cell hd (hi.trans_le hud)]

theorem plain_step (op : AluOp) (h : T.scalar v) : T.Plain (Code.step v op) := by
  simp [Code.step, plain_assign (some op) h h le_rfl]

theorem plain_shiftLeft (h : T.scalar v) : T.Plain (Code.shiftLeft v) := by
  simp [Code.shiftLeft, plain_assign _ h h le_rfl]

theorem plain_shiftRight (h : T.scalar v) : T.Plain (Code.shiftRight v) := by
  simp only [Code.shiftRight, plain_cons, admits_carry, true_and, plain_flatMap, List.mem_reverse]
  intro addr haddr
  simp [owns_of_mem_cellList h haddr]

theorem plain_output (port : Nat) (h : T.scalar v) : T.Plain (Code.output port v) := by
  simp [Code.output, owns_cell_zero h]

theorem plain_input (port : Nat) (h : T.scalar v) : T.Plain (Code.input port v) := by
  unfold Code.input
  split <;> simp [owns_cell_zero h, plain_clearFrom _ h]

theorem plain_compareCell {i : Nat} (hu : T.scalar u) (hw : T.scalar w) (hiu : i < u.cells)
    (hiw : i < w.cells) : T.Plain (Code.compareCell u w i) := by
  simp [Code.compareCell, owns_cell hu hiu, owns_cell hw hiw]

theorem plain_compare {above below : String} (hu : T.scalar u) (hw : T.scalar w)
    (huw : u.cells ≤ w.cells) : T.Plain (Code.compare u w above below) := by
  simp only [Code.compare, plain_cons, admits_carry, true_and, plain_flatMap, List.mem_reverse,
    List.mem_range]
  intro i hi
  simp [plain_compareCell hu hw hi (hi.trans_le huw)]

/-! ### Code for products and quotients -/

variable {x y z q r : Var}

theorem plain_whileNonzero (done body : Nat) (h : T.scalar v) :
    T.Plain (Code.whileNonzero v done body) := by
  have hcells : ∀ addr ∈ v.cellList, T.Owns addr := fun addr ha => owns_of_mem_cellList h ha
  unfold Code.whileNonzero
  split
  · simp [owns_cell_zero h]
  · simpa using hcells

theorem plain_product (n : Nat) (hx : T.scalar x) (hy : T.scalar y) (hz : T.scalar z)
    (hu : T.scalar u) (hw : T.scalar w) (hxu : x.cells = u.cells) (hyw : y.cells = w.cells)
    (hzu : z.cells = u.cells) : T.Plain (Code.product x y z u w n) := by
  simp [Code.product, Code.clear, plain_assign none hx hu hxu.le, plain_assign none hy hw hyw.le,
    plain_clearFrom 0 hz, plain_whileNonzero _ _ hw, owns_cell_zero hw,
    plain_combine .add hz hu hz hzu.le le_rfl, plain_shiftLeft hu, plain_shiftRight hw]

theorem plain_quotient (remainder : Bool) (n : Nat) (hx : T.scalar x) (hy : T.scalar y)
    (hq : T.scalar q) (hr : T.scalar r) (hw : T.scalar w) (hxr : x.cells = r.cells)
    (hyw : y.cells = w.cells) (hwr : w.cells = r.cells) (hrq : r.cells = q.cells) :
    T.Plain (Code.quotient x y q r w remainder n) := by
  have htop : T.Owns w.top := ⟨w, hw, by
    have := w.cells_pos
    unfold Var.Covers Var.top
    omega⟩
  have hlast : T.Plain (if remainder then Code.assign r q none else []) := by
    split
    exacts [plain_assign none hr hq hrq.le, plain_nil]
  simp [Code.quotient, Code.scaleUp, Code.reduce, Code.clear, Code.increment, hlast, htop,
    plain_assign none hx hr hxr.le, plain_assign none hy hw hyw.le, plain_clearFrom 0 hq,
    plain_compare hw hr hwr.le, plain_compare hw hy hyw.ge, plain_combine .sub hr hw hr hwr.ge le_rfl,
    plain_step .add hq, plain_shiftLeft hq, plain_shiftLeft hw, plain_shiftRight hw]

/-! ### Code for tests -/

theorem plain_closeTest_append (yes no : String) (s t : List TestLine) :
    T.Plain (Code.closeTest yes no (s ++ t)) ↔
      T.Plain (Code.closeTest yes no s) ∧ T.Plain (Code.closeTest yes no t) := by
  simp [Code.closeTest]

theorem plain_cellExits (rel : Relation) (n : Nat) (lowest : Bool) (yes no : String) :
    T.Plain (Code.closeTest yes no (Code.cellExits rel n lowest)) := by
  cases rel <;> cases lowest <;> simp [Code.cellExits, Code.closeTest]

theorem plain_cellTests (rel : Relation) (n : Nat) (yes no : String) {count : Nat}
    (hu : T.scalar u) (hw : T.scalar w) (hcu : count ≤ u.cells) (hcw : count ≤ w.cells) :
    T.Plain (Code.closeTest yes no (Code.cellTests rel u w n count)) := by
  induction count generalizing n with
  | zero => exact plain_nil
  | succ count ih =>
    have hcell := plain_compareCell hu hw (i := count) (by omega) (by omega)
    have hlines : Code.closeTest yes no ((Code.compareCell u w count).map .line) =
        Code.compareCell u w count := by
      simp [Code.closeTest, Function.comp_def]
    rw [Code.cellTests, plain_closeTest_append, plain_closeTest_append, hlines]
    exact ⟨⟨hcell, plain_cellExits rel n _ yes no⟩, ih _ (by omega) (by omega)⟩

theorem plain_relationTest (rel : Relation) (n : Nat) (yes no : String) (hu : T.scalar u)
    (hw : T.scalar w) (huw : u.cells ≤ w.cells) :
    T.Plain (Code.closeTest yes no (Code.relationTest rel u w n)) :=
  plain_cons.2 ⟨admits_carry 0, plain_cellTests rel n yes no hu hw le_rfl huw⟩

theorem plain_oddTest (yes no : String) (h : T.scalar v) :
    T.Plain (Code.closeTest yes no (Code.oddTest v)) := by
  simp [Code.oddTest, Code.closeTest, owns_cell_zero h]

theorem plain_nonzeroTest (yes no : String) (h : T.scalar v) :
    T.Plain (Code.closeTest yes no (Code.nonzeroTest v)) := by
  have hcells : ∀ addr ∈ v.cellList, T.Owns addr := fun addr ha => owns_of_mem_cellList h ha
  rw [Code.nonzeroTest, plain_closeTest_append, plain_closeTest_append]
  refine ⟨⟨by simp [Code.closeTest], ?_⟩, by simp [Code.closeTest]⟩
  rw [Code.closeTest, List.map_flatMap, plain_flatMap]
  exact fun addr haddr => by simp [hcells addr haddr]

/-! ### Code for calls and returns -/

theorem plain_selectCall (n : Nat) (h : T.scalar v) : T.Plain (Code.selectCall v n) := by
  have hcell : T.Owns v.addr := owns_cell_zero h
  simp [Code.selectCall, hcell]

theorem plain_returnCascade : (labels : List String) → T.Plain (Code.returnCascade labels)
  | [] => plain_nil
  | [_] | [_, _] => by simp [Code.returnCascade]
  | _ :: second :: third :: rest => by
    simp [Code.returnCascade, plain_returnCascade (second :: third :: rest)]

theorem plain_returnDispatch (labels : List String) (h : T.scalar v) :
    T.Plain (Code.returnDispatch v labels) := by
  have hcell : T.Owns v.addr := owns_cell_zero h
  unfold Code.returnDispatch
  split <;> simp [hcell, plain_returnCascade]

/-! ### Code for arrays -/

variable {arr : ArrayVar} {index offset : Var}

theorem plain_elementOffset (hi : T.scalar index) (ho : T.scalar offset)
    (hbyte : offset.width = .byte) : T.Plain (Code.elementOffset arr index offset) := by
  have h₁ : T.Owns (offset.cell 1) := owns_cell ho (by simp [Var.cells, hbyte, Width.cells])
  have hhigh : T.Admits (if index.width = .nibble then Code.loadImm 0
      else Code.load (index.cell 1)) := by
    split
    · exact admits_loadImm 0
    · rename_i hw
      refine admits_load.2 (owns_cell hi ?_)
      cases hwidth : index.width <;> simp_all [Var.cells, Width.cells]
  unfold Code.elementOffset
  cases arr.width <;>
    simp [owns_cell_zero hi, owns_cell_zero ho, h₁, hhigh, plain_shiftLeft ho]

theorem plain_point (ho : T.scalar offset) (hbyte : offset.width = .byte) :
    T.Plain (Code.point offset) := by
  have h₁ : T.Owns (offset.cell 1) := owns_cell ho (by simp [Var.cells, hbyte, Width.cells])
  simp [Code.point, owns_cell_zero ho, h₁]

theorem plain_advance (ho : T.scalar offset) (last : Bool) :
    T.Plain (if last then Code.increment offset else []) := by
  split
  exacts [plain_step .add ho, plain_nil]

/-- The bank of an array is selected as it is. -/
theorem bankAfter_bank (h : arr.Placed) : (Code.bank arr.bank).bankAfter bank = arr.bank :=
  Nat.mod_eq_of_lt (Nat.lt_of_le_of_lt h.bank_le (by decide))

theorem keeps_readElement (hp : arr.Placed) (ha : T.array arr) (hi : T.scalar index)
    (hd : T.scalar dst) (hw : arr.width = dst.width) (ho : T.scalar offset)
    (hbyte : offset.width = .byte) : T.Keeps (Code.readElement arr index dst offset) := by
  refine (plain_elementOffset hi ho hbyte).keeps.append (.flatMap fun i hmem => ?_)
  have hcell : T.Owns (dst.cell i) :=
    owns_cell hd (by rw [Var.cells, ← hw]; exact List.mem_range.1 hmem)
  refine ((plain_point ho hbyte).keeps.append ?_).append ?_
  · refine ⟨trivial, ?_⟩
    rw [bankAfter_bank hp]
    exact ⟨⟨arr, ha, rfl, rfl⟩, trivial, ⟨rfl, hcell⟩, rfl⟩
  · simpa using (plain_advance ho (decide (i + 1 < arr.width.cells))).keeps

theorem keeps_writeElement (hp : arr.Placed) (ha : T.array arr) (hi : T.scalar index)
    (hs : T.scalar src) (hw : arr.width = src.width) (ho : T.scalar offset)
    (hbyte : offset.width = .byte) : T.Keeps (Code.writeElement arr index src offset) := by
  refine (plain_elementOffset hi ho hbyte).keeps.append (.flatMap fun i hmem => ?_)
  have hcell : T.Owns (src.cell i) :=
    owns_cell hs (by rw [Var.cells, ← hw]; exact List.mem_range.1 hmem)
  refine ((plain_point ho hbyte).keeps.append ?_).append ?_
  · refine ⟨⟨rfl, hcell⟩, trivial, ?_⟩
    change T.Guards ((Code.bank arr.bank).bankAfter 0) _ 0
    rw [bankAfter_bank hp]
    exact ⟨⟨arr, ha, rfl, rfl⟩, trivial, rfl⟩
  · simpa using (plain_advance ho (decide (i + 1 < arr.width.cells))).keeps

/-- `B` may be set in any bank. -/
theorem guards_pointCell (bank i : Nat) : T.Guards bank (Code.pointCell i) bank := by
  unfold Code.pointCell
  split
  · exact ⟨trivial, trivial, trivial, trivial, rfl⟩
  · exact ⟨trivial, trivial, rfl⟩

theorem guards_flatMap {α : Type} {xs : List α} {f : α → List Line}
    (h : ∀ x ∈ xs, T.Guards bank (f x) bank) : T.Guards bank (xs.flatMap f) bank := by
  induction xs with
  | nil => rfl
  | cons x xs ih =>
    exact guards_append.2 ⟨bank, h x (.head _), ih fun y hy => h y (.tail _ hy)⟩

theorem keeps_fillArray (hp : arr.Placed) (ha : T.array arr) (cells : List Nat) :
    T.Keeps (Code.fillArray arr cells) := by
  refine guards_append.2 ⟨arr.bank, guards_append.2 ⟨arr.bank, ?_, ?_⟩, trivial, rfl⟩
  · exact ⟨trivial, bankAfter_bank hp⟩
  · refine guards_flatMap fun ⟨value, i⟩ _ => guards_append.2 ⟨arr.bank, guards_pointCell .., ?_⟩
    exact ⟨trivial, ⟨arr, ha, rfl, rfl⟩, rfl⟩

theorem keeps_copyArray {a b : ArrayVar} (hpa : a.Placed) (hpb : b.Placed) (ha : T.array a)
    (hb : T.array b) : T.Keeps (Code.copyArray a b) := by
  -- The copy of a cell may begin in any bank, and ends in that of `b`.
  suffices h : ∀ n, ∃ mid, T.Guards 0 ((List.range n).flatMap fun i => Code.pointCell i
      ++ [Code.bank a.bank, .inst (.lda (.banked a.addr)), Code.bank b.bank,
        .inst (.sta (.banked b.addr))]) mid by
    obtain ⟨mid, hmid⟩ := h a.size
    exact guards_append.2 ⟨mid, hmid, trivial, rfl⟩
  intro n
  induction n with
  | zero => exact ⟨0, rfl⟩
  | succ n ih =>
    obtain ⟨mid, hmid⟩ := ih
    refine ⟨b.bank, ?_⟩
    rw [List.range_succ, List.flatMap_append, guards_append]
    refine ⟨mid, hmid, ?_⟩
    rw [List.flatMap_cons, List.flatMap_nil, List.append_nil, guards_append]
    refine ⟨mid, guards_pointCell .., trivial, ?_⟩
    rw [bankAfter_bank hpa]
    refine ⟨⟨a, ha, rfl, rfl⟩, trivial, ?_⟩
    change T.Guards ((Code.bank b.bank).bankAfter a.bank) _ _
    rw [bankAfter_bank hpb]
    exact ⟨⟨b, hb, rfl, rfl⟩, rfl⟩

end Territory

end NibblePascal
