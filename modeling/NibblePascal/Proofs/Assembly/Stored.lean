import NibblePascal.Code.Element
import NibblePascal.Code.Product
import NibblePascal.Code.Quotient
import NibblePascal.Code.Test
import NibblePascal.Proofs.Fragments.Scalar

/-!
# Cells that code writes to

`WritesIn P lines`: whatever is executed of the lines with bank 0 selected, no cell outside `P` is
written to.  Fragments write to the scalars that they are made for and to nothing else, and tests do
not write at all.
-/

namespace NibblePascal

/-- With bank 0 selected, the line writes to no cell outside `P`. -/
def Line.WritesIn (P : Nat → Prop) : Line → Prop
  | .inst (.sta (.mem addr)) => P addr
  | .inst (.sta (.banked _)) => False
  | _ => True

/-- With bank 0 selected, none of the lines writes to a cell outside `P`. -/
def WritesIn (P : Nat → Prop) (lines : List Line) : Prop := ∀ l ∈ lines, l.WritesIn P

/-- All cells of the scalar are in `P`. -/
def Var.InCells (v : Var) (P : Nat → Prop) : Prop := ∀ addr, v.Covers addr → P addr

variable {P : Nat → Prop} {l : Line} {lines a b : List Line} {addr : Nat}

@[simp] theorem writesIn_nil : WritesIn P [] := nofun

@[simp] theorem writesIn_cons : WritesIn P (l :: lines) ↔ l.WritesIn P ∧ WritesIn P lines := by
  simp [WritesIn]

@[simp] theorem writesIn_append : WritesIn P (a ++ b) ↔ WritesIn P a ∧ WritesIn P b := by
  simp [WritesIn, or_imp, forall_and]

@[simp] theorem writesIn_flatMap {α : Type} {xs : List α} {f : α → List Line} :
    WritesIn P (xs.flatMap f) ↔ ∀ x ∈ xs, WritesIn P (f x) := by
  simp only [WritesIn, List.mem_flatMap]
  exact ⟨fun h x hx l hl => h l ⟨x, hx, hl⟩, fun h l ⟨x, hx, hl⟩ => h x hx l hl⟩

@[simp] theorem writesIn_map {α : Type} {xs : List α} {f : α → Line} :
    WritesIn P (xs.map f) ↔ ∀ x ∈ xs, (f x).WritesIn P := by simp [WritesIn]

namespace Line

@[simp] theorem writesIn_store : (Code.store addr).WritesIn P ↔ P addr := Iff.rfl

@[simp] theorem writesIn_load : (Code.load addr).WritesIn P := trivial
@[simp] theorem writesIn_loadImm (n : Nat) : (Code.loadImm n).WritesIn P := trivial
@[simp] theorem writesIn_loadBanked : (Line.inst (.lda (.banked addr))).WritesIn P := trivial
@[simp] theorem writesIn_alu (op : AluOp) : (Code.alu op).WritesIn P := trivial
@[simp] theorem writesIn_carry (n : Nat) : (Code.carry n).WritesIn P := trivial
@[simp] theorem writesIn_bank (n : Nat) : (Code.bank n).WritesIn P := trivial
@[simp] theorem writesIn_toLow : Code.toLow.WritesIn P := trivial
@[simp] theorem writesIn_toHigh : Code.toHigh.WritesIn P := trivial
@[simp] theorem writesIn_cmp : Code.cmp.WritesIn P := trivial
@[simp] theorem writesIn_jump (kind : JumpKind) (target : String) :
    (Code.jump kind target).WritesIn P := trivial
@[simp] theorem writesIn_label (name : String) : (Line.label name).WritesIn P := trivial
@[simp] theorem writesIn_codeLabel (n : Nat) : (Code.label n).WritesIn P := trivial
@[simp] theorem writesIn_comment (text : String) : (Code.comment text).WritesIn P := trivial
@[simp] theorem writesIn_release : (Line.release addr).WritesIn P := trivial

end Line

namespace Var.InCells

variable {v : Var}

theorem cell (h : v.InCells P) {i : Nat} (hi : i < v.cells) : P (v.cell i) :=
  h _ ⟨Nat.le_add_right .., Nat.add_lt_add_left hi _⟩

theorem of_mem_cellList (h : v.InCells P) (hi : addr ∈ v.cellList) : P addr := by
  obtain ⟨i, hlt, rfl⟩ := List.mem_map.1 hi
  exact h.cell (List.mem_range.1 hlt)

end Var.InCells

namespace Code

variable {src dst u v w x y z q r index offset : Var} {arr : ArrayVar}

/-! ### Scalars -/

theorem writesIn_copyCells (op : Option AluOp) {count : Nat} (hd : dst.InCells P)
    (hcount : count ≤ dst.cells) : WritesIn P (copyCells src dst op count) := by
  simp only [copyCells, writesIn_flatMap, List.mem_range]
  intro i hi
  simp [hd.cell (hi.trans_le hcount)]

theorem writesIn_assign (op : Option AluOp) (hd : dst.InCells P) (hw : src.cells ≤ dst.cells) :
    WritesIn P (assign src dst op) := writesIn_copyCells op hd hw

theorem writesIn_clearFrom (start : Nat) (h : v.InCells P) : WritesIn P (clearFrom v start) := by
  simp only [clearFrom, writesIn_cons, Line.writesIn_loadImm, true_and, writesIn_map]
  intro addr haddr
  exact h.of_mem_cellList (List.mem_of_mem_drop haddr)

theorem writesIn_constant (value : Nat) (h : dst.InCells P) : WritesIn P (constant value dst) := by
  simp only [constant, writesIn_flatMap, List.mem_range]
  intro i hi
  simp [h.cell hi]

theorem writesIn_resize (hd : dst.InCells P) : WritesIn P (resize src dst) := by
  rw [resize, writesIn_append]
  refine ⟨writesIn_copyCells none hd (Nat.min_le_right ..), ?_⟩
  split
  exacts [writesIn_clearFrom _ hd, writesIn_nil]

theorem writesIn_extract {start : Nat} (hd : dst.InCells P) :
    WritesIn P (extract src start dst) := by
  simp only [extract, writesIn_flatMap, List.mem_range]
  intro i hi
  simp [hd.cell hi]

theorem writesIn_combine (op : AluOp) (hd : dst.InCells P) (hc : u.cells ≤ dst.cells) :
    WritesIn P (combine op u w dst) := by
  simp only [combine, writesIn_cons, Line.writesIn_comment, true_and, writesIn_flatMap,
    List.mem_range]
  intro i hi
  split <;> simp [hd.cell (hi.trans_le hc)]

theorem writesIn_step (op : AluOp) (h : v.InCells P) : WritesIn P (step v op) := by
  simp [step, writesIn_assign (some op) h le_rfl]

theorem writesIn_shiftLeft (h : v.InCells P) : WritesIn P (shiftLeft v) := by
  simp [shiftLeft, writesIn_assign _ h le_rfl]

theorem writesIn_shiftRight (h : v.InCells P) : WritesIn P (shiftRight v) := by
  simp only [shiftRight, writesIn_cons, Line.writesIn_carry, true_and, writesIn_flatMap,
    List.mem_reverse]
  intro addr haddr
  simp [h.of_mem_cellList haddr]

theorem writesIn_compare (above below : String) : WritesIn P (compare u w above below) := by
  simp [compare, compareCell]

/-! ### Products, quotients and elements -/

theorem writesIn_whileNonzero (done body : Nat) : WritesIn P (whileNonzero v done body) := by
  unfold whileNonzero
  split <;> simp

theorem writesIn_product (n : Nat) (hz : z.InCells P) (hu : u.InCells P) (hw : w.InCells P)
    (hxu : x.cells = u.cells) (hyw : y.cells = w.cells) : WritesIn P (product x y z u w n) := by
  simp [product, clear, writesIn_assign none hu hxu.le, writesIn_assign none hw hyw.le,
    writesIn_clearFrom 0 hz, writesIn_whileNonzero, writesIn_combine .add hz le_rfl,
    writesIn_shiftLeft hu, writesIn_shiftRight hw]

theorem writesIn_quotient (remainder : Bool) (n : Nat) (hq : q.InCells P) (hr : r.InCells P)
    (hw : w.InCells P) (hxr : x.cells = r.cells) (hyw : y.cells = w.cells)
    (hrq : r.cells = q.cells) : WritesIn P (quotient x y q r w remainder n) := by
  have hlast : WritesIn P (if remainder then assign r q none else []) := by
    split
    exacts [writesIn_assign none hq hrq.le, writesIn_nil]
  simp [quotient, scaleUp, reduce, clear, increment, hlast, writesIn_assign none hr hxr.le,
    writesIn_assign none hw hyw.le, writesIn_clearFrom 0 hq, writesIn_compare,
    writesIn_combine .sub hr le_rfl, writesIn_step .add hq, writesIn_shiftLeft hq,
    writesIn_shiftLeft hw, writesIn_shiftRight hw]

theorem writesIn_elementOffset (ho : offset.InCells P) (hbyte : offset.width = .byte) :
    WritesIn P (elementOffset arr index offset) := by
  have hcells : offset.cells = 2 := congrArg Width.cells hbyte
  have hhigh : (if index.width = .nibble then loadImm 0 else load (index.cell 1)).WritesIn P := by
    split <;> simp
  unfold elementOffset
  cases arr.width <;>
    simp [hhigh, ho.cell (i := 0) (by omega), ho.cell (i := 1) (by omega), writesIn_shiftLeft ho]

theorem writesIn_readElement (hd : dst.InCells P) (hw : arr.width = dst.width)
    (ho : offset.InCells P) (hbyte : offset.width = .byte) :
    WritesIn P (readElement arr index dst offset) := by
  rw [readElement, writesIn_append, writesIn_flatMap]
  refine ⟨writesIn_elementOffset ho hbyte, fun i hi => ?_⟩
  have hcell : P (dst.cell i) := hd.cell (by rw [Var.cells, ← hw]; exact List.mem_range.1 hi)
  have hadvance : WritesIn P (if i + 1 < arr.width.cells then increment offset else []) := by
    split
    exacts [writesIn_step .add ho, writesIn_nil]
  simp [point, hcell, hadvance]

/-! ### Tests -/

variable {yes no : String}

theorem writesIn_closeTest_map_line :
    WritesIn P (closeTest yes no (lines.map .line)) ↔ WritesIn P lines := by
  simp [closeTest, Function.comp_def]

theorem writesIn_closeTest_append {s t : List TestLine} :
    WritesIn P (closeTest yes no (s ++ t)) ↔
      WritesIn P (closeTest yes no s) ∧ WritesIn P (closeTest yes no t) := by
  simp [closeTest]

theorem writesIn_relationTest (rel : Relation) (n : Nat) :
    WritesIn P (closeTest yes no (relationTest rel u w n)) := by
  have hexits : ∀ n lowest, WritesIn P (closeTest yes no (cellExits rel n lowest)) := by
    intro n lowest
    cases rel <;> cases lowest <;> simp [cellExits, closeTest]
  have hcells : ∀ n count, WritesIn P (closeTest yes no (cellTests rel u w n count)) := by
    intro n count
    induction count generalizing n with
    | zero => exact writesIn_nil
    | succ count ih =>
      rw [cellTests, writesIn_closeTest_append, writesIn_closeTest_append,
        writesIn_closeTest_map_line]
      exact ⟨⟨by simp [compareCell], hexits n _⟩, ih (n + 1)⟩
  exact writesIn_cons.2 ⟨Line.writesIn_carry 0, hcells n u.cells⟩

theorem writesIn_oddTest : WritesIn P (closeTest yes no (oddTest v)) := by
  simp [oddTest, closeTest]

theorem writesIn_nonzeroTest : WritesIn P (closeTest yes no (nonzeroTest v)) := by
  rw [nonzeroTest, writesIn_closeTest_append, writesIn_closeTest_append, closeTest, closeTest,
    List.map_flatMap]
  simp [closeTest]

end Code

end NibblePascal
