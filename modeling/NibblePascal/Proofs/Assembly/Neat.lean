import NibblePascal.Code.Element
import NibblePascal.Code.Product
import NibblePascal.Code.Quotient
import NibblePascal.Code.Return
import NibblePascal.Code.Test
import NibblePascal.Proofs.Assembly.DeadStores
import NibblePascal.Proofs.Assembly.Redundant

/-!
# Loads that are used

No fragment loads the accumulator from a cell in vain: what comes next, but for transparent lines,
is not another such load.

* `Used lines`: the lines begin with something that is no load;
* `Neat lines`: so it is behind every load of the lines, and the lines mark no release.
-/

namespace NibblePascal

/-- A direct load. -/
def Line.isLoad : Line → Bool
  | .inst (.lda (.mem _)) => true
  | _ => false

/-- The first visible line is there and is no load. -/
def Used (lines : List Line) : Prop := ∃ l, visible? lines = some l ∧ l.isLoad = false

/-- Every load is used, and no line marks a release. -/
def Neat : List Line → Prop
  | [] => True
  | l :: lines => l.released? = none ∧ (l.isLoad = true → Used lines) ∧ Neat lines

variable {l : Line} {lines a b : List Line} {addr n : Nat}

theorem used_cons (ht : l.isTransparent = false) (hl : l.isLoad = false) : Used (l :: lines) :=
  ⟨l, visible?_cons ht lines, hl⟩

theorem Used.isLoad_eq (h : Used (l :: lines)) (ht : l.isTransparent = false) :
    l.isLoad = false := by
  obtain ⟨l', hl', hload⟩ := h
  rw [visible?_cons ht, Option.some.injEq] at hl'
  rw [hl', hload]

theorem used_cons_transparent (ht : l.isTransparent = true) : Used (l :: lines) ↔ Used lines := by
  rw [Used, visible?_cons_transparent ht, Used]

theorem Used.append (h : Used a) (b : List Line) : Used (a ++ b) := by
  obtain ⟨l, hl, hload⟩ := h
  exact ⟨l, by rw [visible?, List.find?_append, ← visible?, hl, Option.some_or], hload⟩

theorem neat_cons (hr : l.released? = none) (hl : l.isLoad = false) :
    Neat (l :: lines) ↔ Neat lines := by
  simp [Neat, hr, hl]

@[simp] theorem neat_nil : Neat [] := trivial

@[simp] theorem neat_append (ha : Neat a) : Neat (a ++ b) ↔ Neat b := by
  induction a with
  | nil => rfl
  | cons l a ih =>
    obtain ⟨hr, hl, ha⟩ := ha
    rw [List.cons_append, Neat, ih ha]
    exact ⟨fun h => h.2.2, fun h => ⟨hr, fun hload => (hl hload).append b, h⟩⟩

theorem Neat.of_append (h : Neat (a ++ b)) : Neat b := by
  induction a with
  | nil => exact h
  | cons l a ih => exact ih h.2.2

theorem neat_flatMap {α : Type} {xs : List α} {f : α → List Line} (h : ∀ x ∈ xs, Neat (f x)) :
    Neat (xs.flatMap f) := by
  induction xs with
  | nil => exact neat_nil
  | cons x xs ih =>
    obtain ⟨hx, hxs⟩ := List.forall_mem_cons.1 h
    rw [List.flatMap_cons, neat_append hx]
    exact ih hxs

theorem neat_map {α : Type} {xs : List α} {f : α → Line}
    (h : ∀ x ∈ xs, (f x).released? = none ∧ (f x).isLoad = false) : Neat (xs.map f) := by
  rw [List.map_eq_flatMap]
  refine neat_flatMap fun x hx => ?_
  rw [neat_cons (h x hx).1 (h x hx).2]
  exact neat_nil

/-! ### Lines of fragments -/

@[simp] theorem used_store : Used (Code.store addr :: lines) := used_cons rfl rfl
@[simp] theorem used_alu (op : AluOp) : Used (Code.alu op :: lines) := used_cons rfl rfl
@[simp] theorem used_toLow : Used (Code.toLow :: lines) := used_cons rfl rfl
@[simp] theorem used_toHigh : Used (Code.toHigh :: lines) := used_cons rfl rfl
@[simp] theorem used_cmp : Used (Code.cmp :: lines) := used_cons rfl rfl
@[simp] theorem used_bank : Used (Code.bank n :: lines) := used_cons rfl rfl
@[simp] theorem used_out : Used (.inst (.out n) :: lines) := used_cons rfl rfl
@[simp] theorem used_carry : Used (Code.carry n :: lines) ↔ Used lines := used_cons_transparent rfl

@[simp] theorem neat_load : Neat (Code.load addr :: lines) ↔ Used lines ∧ Neat lines := by
  simp [Neat, Code.load, Line.released?, Line.isLoad]

@[simp] theorem neat_loadImm : Neat (Code.loadImm n :: lines) ↔ Neat lines := neat_cons rfl rfl
@[simp] theorem neat_loadBanked : Neat (.inst (.lda (.banked addr)) :: lines) ↔ Neat lines :=
  neat_cons rfl rfl
@[simp] theorem neat_store : Neat (Code.store addr :: lines) ↔ Neat lines := neat_cons rfl rfl
@[simp] theorem neat_storeBanked : Neat (.inst (.sta (.banked addr)) :: lines) ↔ Neat lines :=
  neat_cons rfl rfl
@[simp] theorem neat_alu (op : AluOp) : Neat (Code.alu op :: lines) ↔ Neat lines :=
  neat_cons rfl rfl
@[simp] theorem neat_carry : Neat (Code.carry n :: lines) ↔ Neat lines := neat_cons rfl rfl
@[simp] theorem neat_toLow : Neat (Code.toLow :: lines) ↔ Neat lines := neat_cons rfl rfl
@[simp] theorem neat_toHigh : Neat (Code.toHigh :: lines) ↔ Neat lines := neat_cons rfl rfl
@[simp] theorem neat_cmp : Neat (Code.cmp :: lines) ↔ Neat lines := neat_cons rfl rfl
@[simp] theorem neat_bank : Neat (Code.bank n :: lines) ↔ Neat lines := neat_cons rfl rfl
@[simp] theorem neat_out : Neat (.inst (.out n) :: lines) ↔ Neat lines := neat_cons rfl rfl
@[simp] theorem neat_inp : Neat (.inst (.inp n) :: lines) ↔ Neat lines := neat_cons rfl rfl
@[simp] theorem neat_nop : Neat (.inst .nop :: lines) ↔ Neat lines := neat_cons rfl rfl
@[simp] theorem neat_jump (kind : JumpKind) (target : String) :
    Neat (Code.jump kind target :: lines) ↔ Neat lines := neat_cons rfl rfl
@[simp] theorem neat_label (name : String) : Neat (.label name :: lines) ↔ Neat lines :=
  neat_cons rfl rfl
@[simp] theorem neat_codeLabel : Neat (Code.label n :: lines) ↔ Neat lines := neat_cons rfl rfl
@[simp] theorem neat_comment (text : String) : Neat (Code.comment text :: lines) ↔ Neat lines :=
  neat_cons rfl rfl
@[simp] theorem neat_endProc (name : String) : Neat (.endProc name :: lines) ↔ Neat lines :=
  neat_cons rfl rfl

namespace Code

variable {src dst u v w x y z q r index offset : Var} {arr : ArrayVar}

/-! ### Scalars -/

@[simp] theorem neat_copyCells (op : Option AluOp) (count : Nat) :
    Neat (copyCells src dst op count) := by
  refine neat_flatMap fun i _ => ?_
  cases op <;> simp

@[simp] theorem neat_assign (op : Option AluOp) : Neat (assign src dst op) :=
  neat_copyCells op src.cells

@[simp] theorem neat_clearFrom (start : Nat) : Neat (clearFrom v start) := by
  rw [clearFrom, neat_loadImm]
  exact neat_map fun _ _ => ⟨rfl, rfl⟩

@[simp] theorem neat_clear : Neat (clear v) := neat_clearFrom 0

@[simp] theorem neat_constant (value : Nat) : Neat (constant value dst) :=
  neat_flatMap fun i _ => by simp

@[simp] theorem neat_resize : Neat (resize src dst) := by
  rw [resize, neat_append (neat_copyCells ..)]
  split <;> simp

@[simp] theorem neat_extract (start : Nat) : Neat (extract src start dst) :=
  neat_flatMap fun i _ => by simp

@[simp] theorem neat_combine (op : AluOp) : Neat (combine op u w dst) := by
  rw [combine, neat_comment]
  refine neat_flatMap fun i _ => ?_
  split <;> simp

@[simp] theorem neat_step (op : AluOp) : Neat (step v op) := by simp [step]

@[simp] theorem neat_shiftLeft : Neat (shiftLeft v) := by simp [shiftLeft]

@[simp] theorem neat_shiftRight : Neat (shiftRight v) := by
  rw [shiftRight, neat_carry]
  exact neat_flatMap fun addr _ => by simp

@[simp] theorem neat_output (port : Nat) : Neat (output port v) := by simp [output]

@[simp] theorem neat_input (port : Nat) : Neat (input port v) := by
  rw [input, neat_append (by simp)]
  split <;> simp

theorem neat_prologue : Neat prologue := by
  have hports : Neat ((List.range 4).map (.inst <| .out ·)) := neat_map fun _ _ => ⟨rfl, rfl⟩
  simp [prologue, hports]

@[simp] theorem neat_compare (above below : String) : Neat (compare u w above below) := by
  rw [compare, neat_carry]
  exact neat_flatMap fun i _ => by simp [compareCell]

/-! ### Products, quotients and elements -/

@[simp] theorem neat_whileNonzero (done body : Nat) : Neat (whileNonzero v done body) := by
  have hcells : Neat (v.cellList.flatMap fun addr =>
      [load addr, cmp, jump .ja (labelName body)]) := neat_flatMap fun addr _ => by simp
  unfold whileNonzero
  split <;> simp [hcells]

@[simp] theorem neat_product (n : Nat) : Neat (product x y z u w n) := by simp [product]

@[simp] theorem neat_quotient (remainder : Bool) (n : Nat) :
    Neat (quotient x y q r w remainder n) := by
  cases remainder <;> simp [quotient, scaleUp, reduce, increment]

@[simp] theorem neat_elementOffset : Neat (elementOffset arr index offset) := by
  unfold elementOffset
  cases arr.width <;> split <;> simp

theorem neat_readElement : Neat (readElement arr index dst offset) := by
  rw [readElement, neat_append neat_elementOffset]
  refine neat_flatMap fun i _ => ?_
  split <;> simp [point, increment]

theorem neat_writeElement : Neat (writeElement arr index src offset) := by
  rw [writeElement, neat_append neat_elementOffset]
  refine neat_flatMap fun i _ => ?_
  split <;> simp [point, increment]

@[simp] theorem neat_pointCell (i : Nat) : Neat (pointCell i) := by
  unfold pointCell
  split <;> simp

theorem neat_fillArray (cells : List Nat) : Neat (fillArray arr cells) := by
  rw [fillArray, List.append_assoc, neat_append (by simp),
    neat_append (neat_flatMap fun _ _ => by simp)]
  simp

theorem neat_copyArray {src dst : ArrayVar} : Neat (copyArray src dst) := by
  rw [copyArray, neat_append (neat_flatMap fun i _ => by simp)]
  simp

/-! ### Calls, returns and tests -/

theorem neat_selectCall (number : Nat) : Neat (selectCall v number) := by
  rw [selectCall, neat_cons rfl rfl]
  simp

theorem neat_returnCascade : (labels : List String) → Neat (returnCascade labels)
  | [] => neat_nil
  | [_] | [_, _] => by simp [returnCascade]
  | _ :: second :: third :: rest => by
    simp [returnCascade, neat_returnCascade (second :: third :: rest)]

theorem neat_returnDispatch : (labels : List String) → Neat (returnDispatch v labels)
  | [] => neat_nil
  | [_] => by simp [returnDispatch]
  | _ :: second :: rest => by simp [returnDispatch, neat_returnCascade (second :: rest)]

variable {yes no : String}

theorem neat_closeTest_append {s t : List TestLine} (hs : Neat (closeTest yes no s)) :
    Neat (closeTest yes no (s ++ t)) ↔ Neat (closeTest yes no t) := by
  rw [closeTest, List.map_append]
  exact neat_append hs

theorem neat_relationTest (rel : Relation) (n : Nat) :
    Neat (closeTest yes no (relationTest rel u w n)) := by
  have hexits : ∀ n lowest, Neat (closeTest yes no (cellExits rel n lowest)) := by
    intro n lowest
    cases rel <;> cases lowest <;> simp [cellExits, closeTest]
  have hcells : ∀ n count, Neat (closeTest yes no (cellTests rel u w n count)) := by
    intro n count
    induction count generalizing n with
    | zero => exact neat_nil
    | succ count ih =>
      have hcompare : Neat (closeTest yes no ((compareCell u w count).map .line)) := by
        simp [compareCell, closeTest]
      rw [cellTests, List.append_assoc, neat_closeTest_append hcompare,
        neat_closeTest_append (hexits n _)]
      exact ih (n + 1)
  exact neat_carry.2 (hcells n u.cells)

theorem neat_oddTest : Neat (closeTest yes no (oddTest v)) := by
  simp [oddTest, closeTest]

theorem neat_nonzeroTest : Neat (closeTest yes no (nonzeroTest v)) := by
  have hcells : Neat (closeTest yes no (v.cellList.flatMap fun addr =>
      [.line (load addr), .line cmp, .exit true .ja])) := by
    rw [closeTest, List.map_flatMap]
    exact neat_flatMap fun addr _ => by simp
  rw [nonzeroTest, List.append_assoc, neat_closeTest_append (by simp [closeTest]),
    neat_closeTest_append hcells]
  simp [closeTest]

end Code

end NibblePascal
