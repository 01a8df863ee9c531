import Mathlib.Data.List.Nodup
import NibblePascal.Proofs.Generation.Statement

/-!
# The labels of generated code

Every label is numbered when it is made, so a piece of code has the labels between two numbers
for itself.  `Labelled outer lo hi lines` says that the labels of `lines` are distinct and
numbered from `lo` to below `hi`, and that `lines` jump to them or to labels of `outer`.
-/

namespace NibblePascal

/-! ### Names of labels -/

theorem Code.labelName_injective : Function.Injective Code.labelName := by
  intro a b h
  have hdigits : Nat.toDigits 10 a = Nat.toDigits 10 b := by
    have := congrArg String.toList h
    simpa [labelName, Nat.toString_eq_repr, Nat.toList_repr] using this
  have := congrArg (Nat.ofDigitChars 10 · 0) hdigits
  simpa [Nat.ofDigitChars_toDigits] using this

/-! ### Straight lines -/

/-- A line that neither jumps nor is jumped to. -/
def Line.IsStraight : Line → Prop
  | .inst (.jump _ _) => False
  | .inst .hlt => False
  | .inst _ => True
  | .comment _ => True
  | .release _ => True
  | _ => False

/-- Lines that run one after the other. -/
def AllStraight (lines : List Line) : Prop := ∀ l ∈ lines, l.IsStraight

namespace AllStraight

@[simp] theorem nil : AllStraight [] := by simp [AllStraight]

@[simp] theorem cons {l : Line} {lines : List Line} :
    AllStraight (l :: lines) ↔ l.IsStraight ∧ AllStraight lines := by simp [AllStraight]

@[simp] theorem append {a b : List Line} :
    AllStraight (a ++ b) ↔ AllStraight a ∧ AllStraight b := by
  simp [AllStraight, or_imp, forall_and]

@[simp] theorem flatMap {α : Type} {xs : List α} {f : α → List Line} :
    AllStraight (xs.flatMap f) ↔ ∀ x ∈ xs, AllStraight (f x) := by
  simp only [AllStraight, List.mem_flatMap]
  exact ⟨fun h x hx l hl => h l ⟨x, hx, hl⟩, fun h l ⟨x, hx, hl⟩ => h x hx l hl⟩

@[simp] theorem map {α : Type} {xs : List α} {f : α → Line} :
    AllStraight (xs.map f) ↔ ∀ x ∈ xs, (f x).IsStraight := by simp [AllStraight]

theorem drop {lines : List Line} (h : AllStraight lines) (n : Nat) : AllStraight (lines.drop n) :=
  fun l hl => h l (List.mem_of_mem_drop hl)

variable {lines : List Line}

theorem labelNames_eq (h : AllStraight lines) : labelNames lines = [] := by
  refine List.filterMap_eq_nil_iff.2 fun l hl => ?_
  have := h l hl
  cases l <;> first | rfl | cases this

theorem jumpTargets_eq (h : AllStraight lines) : jumpTargets lines = [] := by
  refine List.filterMap_eq_nil_iff.2 fun l hl => ?_
  have := h l hl
  cases l with
  | inst i => cases i <;> first | rfl | cases this
  | _ => rfl

end AllStraight

/-- Lines without inline assembly. -/
def NoRaw (lines : List Line) : Prop := ∀ l ∈ lines, Image.isRaw l = false

namespace NoRaw

@[simp] theorem nil : NoRaw [] := by simp [NoRaw]

@[simp] theorem cons {l : Line} {lines : List Line} :
    NoRaw (l :: lines) ↔ Image.isRaw l = false ∧ NoRaw lines := by simp [NoRaw]

@[simp] theorem append {a b : List Line} : NoRaw (a ++ b) ↔ NoRaw a ∧ NoRaw b := by
  simp [NoRaw, or_imp, forall_and]

@[simp] theorem flatMap {α : Type} {xs : List α} {f : α → List Line} :
    NoRaw (xs.flatMap f) ↔ ∀ x ∈ xs, NoRaw (f x) := by
  simp only [NoRaw, List.mem_flatMap]
  exact ⟨fun h x hx l hl => h l ⟨x, hx, hl⟩, fun h l ⟨x, hx, hl⟩ => h x hx l hl⟩

end NoRaw

theorem Line.IsStraight.isRaw_eq {l : Line} (h : l.IsStraight) : Image.isRaw l = false := by
  cases l <;> first | rfl | cases h

theorem AllStraight.noRaw {lines : List Line} (h : AllStraight lines) : NoRaw lines :=
  fun l hl => (h l hl).isRaw_eq

/-- Lines without the end of a procedure among them. -/
def Unmarked (lines : List Line) : Prop := ∀ l ∈ lines, ∀ name, l ≠ .endProc name

namespace Unmarked

@[simp] theorem nil : Unmarked [] := by simp [Unmarked]

@[simp] theorem cons {l : Line} {lines : List Line} :
    Unmarked (l :: lines) ↔ (∀ name, l ≠ .endProc name) ∧ Unmarked lines := by simp [Unmarked]

@[simp] theorem append {a b : List Line} : Unmarked (a ++ b) ↔ Unmarked a ∧ Unmarked b := by
  simp [Unmarked, or_imp, forall_and]

@[simp] theorem flatMap {α : Type} {xs : List α} {f : α → List Line} :
    Unmarked (xs.flatMap f) ↔ ∀ x ∈ xs, Unmarked (f x) := by
  simp only [Unmarked, List.mem_flatMap]
  exact ⟨fun h x hx l hl => h l ⟨x, hx, hl⟩, fun h l ⟨x, hx, hl⟩ => h x hx l hl⟩

end Unmarked

theorem Line.IsStraight.ne_endProc {l : Line} (h : l.IsStraight) (name : String) :
    l ≠ .endProc name := by
  rintro rfl
  exact h

theorem AllStraight.unmarked {lines : List Line} (h : AllStraight lines) : Unmarked lines :=
  fun l hl => (h l hl).ne_endProc

namespace Code

variable {src dst a b v : Var} {arr : ArrayVar}

@[simp] theorem isStraight_lda (source : Source) : (Line.inst (.lda source)).IsStraight := trivial
@[simp] theorem isStraight_sta (dest : Dest) : (Line.inst (.sta dest)).IsStraight := trivial
@[simp] theorem isStraight_out (port : Nat) : (Line.inst (.out port)).IsStraight := trivial
@[simp] theorem isStraight_inp (port : Nat) : (Line.inst (.inp port)).IsStraight := trivial
@[simp] theorem isStraight_release (addr : Nat) : (Line.release addr).IsStraight := trivial
@[simp] theorem isStraight_load (addr : Nat) : (load addr).IsStraight := trivial
@[simp] theorem isStraight_loadImm (n : Nat) : (loadImm n).IsStraight := trivial
@[simp] theorem isStraight_store (addr : Nat) : (store addr).IsStraight := trivial
@[simp] theorem isStraight_alu (op : AluOp) : (alu op).IsStraight := trivial
@[simp] theorem isStraight_carry (n : Nat) : (carry n).IsStraight := trivial
@[simp] theorem isStraight_toLow : toLow.IsStraight := trivial
@[simp] theorem isStraight_toHigh : toHigh.IsStraight := trivial
@[simp] theorem isStraight_cmp : cmp.IsStraight := trivial
@[simp] theorem isStraight_bank (n : Nat) : (bank n).IsStraight := trivial
@[simp] theorem isStraight_comment (text : String) : (comment text).IsStraight := trivial

@[simp] theorem allStraight_copyCells (op : Option AluOp) (count : Nat) :
    AllStraight (copyCells src dst op count) := by
  cases op <;> simp [copyCells]

@[simp] theorem allStraight_assign (op : Option AluOp) : AllStraight (assign src dst op) :=
  allStraight_copyCells op _

@[simp] theorem allStraight_clearFrom (start : Nat) : AllStraight (clearFrom v start) := by
  simp [clearFrom, AllStraight.drop]

@[simp] theorem allStraight_clear : AllStraight (clear v) := allStraight_clearFrom 0

@[simp] theorem allStraight_constant (value : Nat) : AllStraight (constant value dst) := by
  simp [constant]

@[simp] theorem allStraight_resize : AllStraight (resize src dst) := by
  unfold resize
  split <;> simp

@[simp] theorem allStraight_extract (start : Nat) : AllStraight (extract src start dst) := by
  simp [extract]

@[simp] theorem allStraight_combine (op : AluOp) : AllStraight (combine op a b dst) := by
  simp only [combine, AllStraight.cons, isStraight_comment, true_and, AllStraight.flatMap]
  intro i _
  split <;> simp

@[simp] theorem allStraight_step (op : AluOp) : AllStraight (step v op) := by simp [step]

@[simp] theorem allStraight_increment : AllStraight (increment v) := allStraight_step .add

@[simp] theorem allStraight_decrement : AllStraight (decrement v) := allStraight_step .sub

@[simp] theorem allStraight_shiftLeft : AllStraight (shiftLeft v) := by simp [shiftLeft]

@[simp] theorem allStraight_shiftRight : AllStraight (shiftRight v) := by simp [shiftRight]

@[simp] theorem allStraight_output (port : Nat) : AllStraight (output port v) := by
  simp [output]

@[simp] theorem allStraight_input (port : Nat) : AllStraight (input port v) := by
  unfold input
  split <;> simp

@[simp] theorem allStraight_elementOffset : AllStraight (elementOffset arr a b) := by
  unfold elementOffset
  cases arr.width <;> split <;> simp

@[simp] theorem allStraight_point : AllStraight (point v) := by simp [point]

@[simp] theorem allStraight_readElement : AllStraight (readElement arr a dst b) := by
  simp only [readElement, AllStraight.append, allStraight_elementOffset, true_and,
    AllStraight.flatMap]
  intro i _
  split <;> simp

@[simp] theorem allStraight_writeElement : AllStraight (writeElement arr a src b) := by
  simp only [writeElement, AllStraight.append, allStraight_elementOffset, true_and,
    AllStraight.flatMap]
  intro i _
  split <;> simp

@[simp] theorem allStraight_pointCell (i : Nat) : AllStraight (pointCell i) := by
  unfold pointCell
  split <;> simp

@[simp] theorem allStraight_fillArray (cells : List Nat) : AllStraight (fillArray arr cells) := by
  simp [fillArray]

@[simp] theorem allStraight_copyArray (src dst : ArrayVar) : AllStraight (copyArray src dst) := by
  simp [copyArray]

@[simp] theorem allStraight_compareCell (i : Nat) : AllStraight (compareCell a b i) := by
  simp [compareCell]

@[simp] theorem allStraight_selectCall (n : Nat) : AllStraight (selectCall v n) := by
  simp [selectCall]

@[simp] theorem allStraight_freeLines : AllStraight (freeLines v) := by
  unfold freeLines
  split <;> simp

@[simp] theorem allStraight_advanceCounter (down : Bool) : AllStraight (advanceCounter down v) := by
  cases down <;> simp [advanceCounter]

end Code

/-! ### Labelled code -/

/-- Code whose labels are distinct and have numbers in `own`, and that jumps to them or to
labels of `outer`.  It has neither inline assembly nor the end of a procedure in it. -/
structure Labelled (outer : String → Prop) (own : Nat → Prop) (lines : List Line) : Prop where
  numbers : ∃ ns : List Nat, labelNames lines = ns.map Code.labelName ∧ ns.Nodup ∧ ∀ k ∈ ns, own k
  closed : ∀ t ∈ jumpTargets lines, t ∈ labelNames lines ∨ outer t
  noRaw : NoRaw lines
  unmarked : Unmarked lines

variable {outer outer' : String → Prop} {own own' : Nat → Prop} {lines a b : List Line}

theorem AllStraight.labelled (h : AllStraight lines) : Labelled outer own lines where
  numbers := ⟨[], h.labelNames_eq, List.nodup_nil, nofun⟩
  closed := by simp [h.jumpTargets_eq]
  noRaw := h.noRaw
  unmarked := h.unmarked

namespace Labelled

theorem append (ha : Labelled outer own a) (hb : Labelled outer own' b)
    (h : ∀ k, own k → ¬ own' k) : Labelled outer (fun k => own k ∨ own' k) (a ++ b) where
  numbers := by
    obtain ⟨ns, hns, hnd, hr⟩ := ha.numbers
    obtain ⟨ms, hms, hmd, hs⟩ := hb.numbers
    refine ⟨ns ++ ms, by simp [hns, hms], ?_, by grind⟩
    rw [List.nodup_append]
    grind
  closed := by
    intro t ht
    rw [jumpTargets_append, List.mem_append] at ht
    rw [labelNames_append, List.mem_append]
    rcases ht with ht | ht
    · exact (ha.closed t ht).imp_left .inl
    · exact (hb.closed t ht).imp_left .inr
  noRaw := NoRaw.append.2 ⟨ha.noRaw, hb.noRaw⟩
  unmarked := Unmarked.append.2 ⟨ha.unmarked, hb.unmarked⟩

theorem weaken (h : Labelled outer own lines) (hown : ∀ k, own k → own' k)
    (houter : ∀ t, outer t → t ∈ labelNames lines ∨ outer' t) : Labelled outer' own' lines where
  numbers := by
    obtain ⟨ns, hns, hnd, hr⟩ := h.numbers
    exact ⟨ns, hns, hnd, fun k hk => hown k (hr k hk)⟩
  closed := fun t ht => (h.closed t ht).elim .inl (houter t)
  noRaw := h.noRaw
  unmarked := h.unmarked

theorem widen (h : Labelled outer own lines) (outer' : String → Prop)
    (houter : ∀ t, outer t → outer' t) : Labelled outer' own lines :=
  h.weaken (fun _ hk => hk) fun t ht => .inr (houter t ht)

theorem mono (h : Labelled outer own lines) (hown : ∀ k, own k → own' k) :
    Labelled outer own' lines := h.weaken hown fun _ ht => .inr ht

/-- Code with the labels from `lo` to below `mid`, then code with those from `mid` on. -/
theorem append_range {lo mid hi : Nat} (ha : Labelled outer (fun k => lo ≤ k ∧ k < mid) a)
    (hb : Labelled outer (fun k => mid ≤ k ∧ k < hi) b) (hlo : lo ≤ mid) (hhi : mid ≤ hi) :
    Labelled outer (fun k => lo ≤ k ∧ k < hi) (a ++ b) :=
  (ha.append hb (by omega)).mono (by omega)

/-- Code without labels may come first. -/
theorem none_append (ha : Labelled outer (fun _ => False) a) (hb : Labelled outer own b) :
    Labelled outer own (a ++ b) := (ha.append hb (by simp)).mono (by simp)

/-- Code without labels may follow. -/
theorem append_none (ha : Labelled outer own a) (hb : Labelled outer (fun _ => False) b) :
    Labelled outer own (a ++ b) := (ha.append hb (by simp)).mono (by simp)

/-- Straight lines may come first. -/
theorem straight_append (ha : AllStraight a) (hb : Labelled outer own b) :
    Labelled outer own (a ++ b) := none_append ha.labelled hb

/-- Straight lines may follow. -/
theorem append_straight (ha : Labelled outer own a) (hb : AllStraight b) :
    Labelled outer own (a ++ b) := ha.append_none hb.labelled

theorem single (n : Nat) : Labelled outer (· = n) [Code.label n] where
  numbers := ⟨[n], rfl, by simp, by simp⟩
  closed := nofun
  noRaw := by simp [Code.label, Image.isRaw]
  unmarked := by simp [Code.label]

theorem jump (kind : JumpKind) {target : String} (h : outer target) :
    Labelled outer (fun _ => False) [Code.jump kind target] where
  numbers := ⟨[], rfl, by simp, by simp⟩
  closed := fun t ht => .inr (List.mem_singleton.1 ht ▸ h)
  noRaw := by simp [Code.jump, Image.isRaw]
  unmarked := by simp [Code.jump]

/-- Code inside a construct may jump to the labels of the construct as well. -/
theorem inside (h : Labelled outer own lines) (names : List String) :
    Labelled (fun t => t ∈ names ∨ outer t) own lines := h.widen _ fun _ ht => .inr ht

/-- A construct that has the labels it jumps to. -/
theorem close {names : List String} (h : Labelled (fun t => t ∈ names ∨ outer t) own lines)
    (hown : ∀ k, own k → own' k) (hnames : ∀ t ∈ names, t ∈ labelNames lines) :
    Labelled outer own' lines :=
  h.weaken hown fun t ht => ht.imp_left (hnames t)

/-- Code that jumps to its own labels only. -/
theorem isClosed (h : Labelled (fun _ => False) own lines) : Image.Closed lines := by
  obtain ⟨ns, hns, hnd, -⟩ := h.numbers
  refine ⟨?_, fun t ht => (h.closed t ht).resolve_right id, h.noRaw⟩
  rw [hns]
  exact hnd.map Code.labelName_injective

end Labelled

/-! ### Labels and targets line by line -/

theorem labelNames_cons_straight {l : Line} (h : l.IsStraight) (lines : List Line) :
    labelNames (l :: lines) = labelNames lines := by
  cases l <;> first | rfl | cases h

theorem jumpTargets_cons_straight {l : Line} (h : l.IsStraight) (lines : List Line) :
    jumpTargets (l :: lines) = jumpTargets lines := by
  cases l with
  | inst i => cases i <;> first | rfl | cases h
  | _ => rfl

@[simp] theorem labelNames_label (name : String) (lines : List Line) :
    labelNames (.label name :: lines) = name :: labelNames lines := rfl

@[simp] theorem labelNames_codeLabel (n : Nat) (lines : List Line) :
    labelNames (Code.label n :: lines) = Code.labelName n :: labelNames lines := rfl

@[simp] theorem labelNames_jump (kind : JumpKind) (target : String) (lines : List Line) :
    labelNames (Code.jump kind target :: lines) = labelNames lines := rfl

@[simp] theorem jumpTargets_label (name : String) (lines : List Line) :
    jumpTargets (.label name :: lines) = jumpTargets lines := rfl

@[simp] theorem jumpTargets_codeLabel (n : Nat) (lines : List Line) :
    jumpTargets (Code.label n :: lines) = jumpTargets lines := rfl

@[simp] theorem jumpTargets_jump (kind : JumpKind) (target : String) (lines : List Line) :
    jumpTargets (Code.jump kind target :: lines) = target :: jumpTargets lines := rfl

@[simp] theorem isRaw_codeLabel (n : Nat) : Image.isRaw (Code.label n) = false := rfl

@[simp] theorem isRaw_jump (kind : JumpKind) (target : String) :
    Image.isRaw (Code.jump kind target) = false := rfl

@[simp] theorem codeLabel_ne_endProc (n : Nat) (name : String) : Code.label n ≠ .endProc name := nofun

@[simp] theorem jump_ne_endProc (kind : JumpKind) (target name : String) :
    Code.jump kind target ≠ .endProc name := nofun

@[simp] theorem labelNames_flatMap {α : Type} (xs : List α) (f : α → List Line) :
    labelNames (xs.flatMap f) = xs.flatMap fun x => labelNames (f x) := List.filterMap_flatMap

@[simp] theorem jumpTargets_flatMap {α : Type} (xs : List α) (f : α → List Line) :
    jumpTargets (xs.flatMap f) = xs.flatMap fun x => jumpTargets (f x) := List.filterMap_flatMap

namespace Code

@[simp] theorem labelNames_compare (a b : Var) (above below : String) :
    labelNames (compare a b above below) = [] := by
  rw [compare, labelNames_cons_straight (isStraight_carry 0), labelNames_flatMap,
    List.flatMap_eq_nil_iff]
  simp [AllStraight.labelNames_eq]

theorem noRaw_whileNonzero (w : Var) (done body : Nat) : NoRaw (whileNonzero w done body) := by
  cases hw : w.width <;> simp [whileNonzero, hw, Line.IsStraight.isRaw_eq]

theorem unmarked_whileNonzero (w : Var) (done body : Nat) :
    Unmarked (whileNonzero w done body) := by
  cases hw : w.width <;> simp [whileNonzero, hw, Line.IsStraight.ne_endProc]

theorem labelNames_product (x y z u w : Var) (n : Nat) :
    labelNames (product x y z u w n) = labelName n :: (labelNames (whileNonzero w (n + 1) (n + 2))
      ++ [labelName (n + 3), labelName (n + 1)]) := by
  simp [product, AllStraight.labelNames_eq, labelNames_cons_straight]

theorem jumpTargets_product (x y z u w : Var) (n : Nat) :
    jumpTargets (product x y z u w n) =
      jumpTargets (whileNonzero w (n + 1) (n + 2)) ++ [labelName (n + 3), labelName n] := by
  simp [product, AllStraight.jumpTargets_eq, jumpTargets_cons_straight]

theorem labelled_product {x y z u w : Var} (n : Nat) :
    Labelled outer (fun k => n ≤ k ∧ k < n + productLabels) (product x y z u w n) where
  numbers := by
    rw [labelNames_product]
    cases hw : w.width with
    | nibble =>
      refine ⟨[n, n + 3, n + 1], ?_, by simp, by simp [productLabels]⟩
      simp [whileNonzero, hw, labelNames_cons_straight]
    | byte | word =>
      refine ⟨[n, n + 2, n + 3, n + 1], ?_, by simp, by simp [productLabels]⟩
      simp [whileNonzero, hw, AllStraight.labelNames_eq, labelNames_cons_straight]
  closed := by
    rw [labelNames_product, jumpTargets_product]
    cases hw : w.width with
    | nibble => simp [whileNonzero, hw, labelNames_cons_straight, jumpTargets_cons_straight]
    | byte | word =>
      intro t ht
      simp [whileNonzero, hw, AllStraight.labelNames_eq, labelNames_cons_straight,
        AllStraight.jumpTargets_eq, jumpTargets_cons_straight] at ht ⊢
      grind
  noRaw := by simp [product, noRaw_whileNonzero, AllStraight.noRaw, Line.IsStraight.isRaw_eq]
  unmarked := by
    simp [product, unmarked_whileNonzero, AllStraight.unmarked, Line.IsStraight.ne_endProc]

theorem labelled_scaleUp (r w : Var) (n : Nat) :
    Labelled outer (fun k => n ≤ k ∧ k < n + 4) (scaleUp r w n) where
  numbers := by
    refine ⟨[n, n + 1, n + 2, n + 3], ?_, by simp, by simp⟩
    simp [scaleUp, AllStraight.labelNames_eq, labelNames_cons_straight]
  closed := by
    intro t ht
    simp [scaleUp, compare, AllStraight.labelNames_eq, labelNames_cons_straight,
      AllStraight.jumpTargets_eq, jumpTargets_cons_straight] at ht ⊢
    grind
  noRaw := by simp [scaleUp, compare, AllStraight.noRaw, Line.IsStraight.isRaw_eq]
  unmarked := by simp [scaleUp, compare, AllStraight.unmarked, Line.IsStraight.ne_endProc]

theorem labelled_reduce (y q r w : Var) (n : Nat) :
    Labelled outer (fun k => n ≤ k ∧ k < n + 5) (reduce y q r w n) where
  numbers := by
    refine ⟨[n + 4, n + 1, n, n + 2, n + 3], ?_, by simp, by simp⟩
    simp [reduce, AllStraight.labelNames_eq, labelNames_cons_straight]
  closed := by
    intro t ht
    simp [reduce, compare, AllStraight.labelNames_eq, labelNames_cons_straight,
      AllStraight.jumpTargets_eq, jumpTargets_cons_straight] at ht ⊢
    grind
  noRaw := by simp [reduce, compare, AllStraight.noRaw, Line.IsStraight.isRaw_eq]
  unmarked := by simp [reduce, compare, AllStraight.unmarked, Line.IsStraight.ne_endProc]

theorem labelled_quotient {x y q r w : Var} {remainder : Bool} (n : Nat) :
    Labelled outer (fun k => n ≤ k ∧ k < n + quotientLabels)
      (quotient x y q r w remainder n) := by
  have hstart : AllStraight (assign x r none ++ assign y w none ++ clear q) := by simp
  have hresult : AllStraight (if remainder then assign r q none else []) := by
    cases remainder <;> simp
  have hloops : Labelled outer (fun k => n ≤ k ∧ k < n + quotientLabels)
      (scaleUp r w n ++ reduce y q r w (n + 4)) :=
    (labelled_scaleUp r w n).append_range (labelled_reduce y q r w (n + 4))
      (Nat.le_add_right ..) (by simp [quotientLabels])
  have hall := (hloops.append_straight hresult).straight_append hstart
  simpa only [quotient, List.append_assoc] using hall

end Code

/-! ### Expressions -/

section Expressions

variable {s s' : Stock} {v v' x y x' y' res : Var} {w : Width} {op : BinaryOp}

theorem Converted.straight (h : Converted s v w lines v' s') : AllStraight lines := by
  cases h <;> simp

theorem Converted.labels_eq (h : Converted s v w lines v' s') : s'.labels = s.labels := by
  cases h with
  | same => rfl
  | resized h ht => simpa using ht.labels_eq

theorem Matched.straight (h : Matched s x y lines x' y' s') : AllStraight lines := by
  cases h with
  | same => simp
  | left _ hc | right _ hc => exact hc.straight

theorem Matched.labels_eq (h : Matched s x y lines x' y' s') : s'.labels = s.labels := by
  cases h with
  | same => rfl
  | left _ hc | right _ hc => exact hc.labels_eq

theorem Operated.labelled (h : Operated s x y res op lines s') (outer : String → Prop) :
    s.labels ≤ s'.labels
    ∧ Labelled outer (fun k => s.labels ≤ k ∧ k < s'.labels) lines := by
  cases h with
  | combine => exact ⟨Nat.le_refl _, (Code.allStraight_combine _).labelled⟩
  | multiply hu hw =>
    have hs := hw.labels_eq.trans hu.labels_eq
    simp only [Stock.labels_release, Stock.labels_skip, ← hs]
    exact ⟨Nat.le_add_right .., Labelled.straight_append (a := [_]) (by simp)
      (Code.labelled_product _)⟩
  | divide remainder hu hw =>
    have hs := hw.labels_eq.trans hu.labels_eq
    simp only [Stock.labels_release, Stock.labels_skip, ← hs]
    exact ⟨Nat.le_add_right .., Labelled.straight_append (a := [_]) (by simp)
      (Code.labelled_quotient _)⟩

theorem Expr.Coded.labelled {sc : Scope} {e : Expr} (h : Expr.Coded sc s e lines v s')
    (outer : String → Prop) :
    s.labels ≤ s'.labels ∧ Labelled outer (fun k => s.labels ≤ k ∧ k < s'.labels) lines := by
  induction h with
  | scalar | halfNibble => exact ⟨Nat.le_refl _, AllStraight.nil.labelled⟩
  | literal ht | negLiteral ht =>
    exact ⟨ht.labels_eq.ge, (Code.allStraight_constant _).labelled⟩
  | half _ _ ht => exact ⟨ht.labels_eq.ge, (Code.allStraight_extract _).labelled⟩
  | paren _ ih => exact ih
  | element _ _ hr ho ih =>
    rw [Stock.labels_release, Stock.labels_release, ho.labels_eq, hr.labels_eq]
    exact ⟨ih.1, ih.2.append_straight (by simp)⟩
  | negate _ hc ht ih =>
    rw [Stock.labels_release, ht.labels_eq, hc.labels_eq]
    exact ⟨ih.1, ih.2.append_straight (by simp [hc.straight])⟩
  | binary _ _ hm ht ho iha ihb =>
    have hlabels := ht.labels_eq.trans hm.labels_eq
    obtain ⟨hle, hop⟩ := ho.labelled outer
    rw [hlabels] at hle hop
    simp only [Stock.labels_release]
    refine ⟨iha.1.trans (ihb.1.trans hle), iha.2.append_range ?_ iha.1 (ihb.1.trans hle)⟩
    refine ihb.2.append_range (Labelled.straight_append hm.straight ?_) ihb.1 hle
    exact hop.append_straight (by simp)

end Expressions

/-! ### Tests -/

/-- The line of a test line that is no exit. -/
def TestLine.line? : TestLine → Option Line
  | line l => some l
  | exit _ _ => none

namespace Code

/-- The lines of a test apart from its exits. -/
def inner (test : List TestLine) : List Line := test.filterMap TestLine.line?

@[simp] theorem inner_nil : inner [] = [] := rfl

@[simp] theorem inner_line (l : Line) (test : List TestLine) :
    inner (.line l :: test) = l :: inner test := rfl

@[simp] theorem inner_exit (outcome : Bool) (kind : JumpKind) (test : List TestLine) :
    inner (.exit outcome kind :: test) = inner test := rfl

@[simp] theorem inner_append (a b : List TestLine) : inner (a ++ b) = inner a ++ inner b :=
  List.filterMap_append

@[simp] theorem inner_map_line (lines : List Line) : inner (lines.map .line) = lines := by
  induction lines with
  | nil => rfl
  | cons l lines ih => simpa using ih

theorem labelNames_closeTest (yes no : String) (test : List TestLine) :
    labelNames (closeTest yes no test) = labelNames (inner test) := by
  induction test with
  | nil => rfl
  | cons l test ih =>
    cases l with
    | line l =>
      rw [closeTest_line, inner_line, ← List.singleton_append, labelNames_append, ih,
        ← labelNames_append]
      rfl
    | exit outcome kind => simpa using ih

theorem mem_jumpTargets_closeTest {yes no t : String} {test : List TestLine}
    (h : t ∈ jumpTargets (closeTest yes no test)) :
    t ∈ jumpTargets (inner test) ∨ t = yes ∨ t = no := by
  induction test with
  | nil => cases h
  | cons l test ih =>
    cases l with
    | line l =>
      rw [closeTest_line, ← List.singleton_append, jumpTargets_append, List.mem_append] at h
      rw [inner_line, ← List.singleton_append, jumpTargets_append, List.mem_append, or_assoc]
      exact h.imp_right ih
    | exit outcome kind =>
      rw [closeTest_exit, jumpTargets_jump, List.mem_cons] at h
      rcases h with rfl | h
      · cases outcome <;> simp
      · exact ih h

theorem noRaw_closeTest {yes no : String} {test : List TestLine} (h : NoRaw (inner test)) :
    NoRaw (closeTest yes no test) := by
  induction test with
  | nil => simp
  | cons l test ih =>
    cases l with
    | line l =>
      rw [inner_line, NoRaw.cons] at h
      simpa using ⟨h.1, ih h.2⟩
    | exit outcome kind => simpa using ih h

theorem unmarked_closeTest {yes no : String} {test : List TestLine} (h : Unmarked (inner test)) :
    Unmarked (closeTest yes no test) := by
  induction test with
  | nil => simp
  | cons l test ih =>
    cases l with
    | line l =>
      rw [inner_line, Unmarked.cons] at h
      simpa using ⟨h.1, ih h.2⟩
    | exit outcome kind => simpa using ih h

/-- The exits of a test bring no labels in and lead out of it. -/
theorem labelled_closeTest {test : List TestLine} {yes no : String}
    (h : Labelled outer own (inner test)) (hyes : outer yes) (hno : outer no) :
    Labelled outer own (closeTest yes no test) where
  numbers := labelNames_closeTest yes no test ▸ h.numbers
  closed := by
    intro t ht
    rw [labelNames_closeTest]
    rcases mem_jumpTargets_closeTest ht with ht | rfl | rfl
    · exact h.closed t ht
    · exact .inr hyes
    · exact .inr hno
  noRaw := noRaw_closeTest h.noRaw
  unmarked := unmarked_closeTest h.unmarked

/-! ### Relations -/

/-- The comparison of a cell for equality goes on at a label of its own. -/
theorem labelled_cellExits (outer : String → Prop) (n : Nat) (lines : List Line) (h : AllStraight lines) :
    Labelled outer (fun k => n ≤ k ∧ k < n + 1)
      (lines ++ [jump .je (labelName n), label n]) := by
  have hpair : Labelled (fun t => t = labelName n ∨ outer t) (fun k => k = n)
      ([jump .je (labelName n)] ++ [label n]) :=
    .none_append (.jump .je (.inl rfl)) (.single n)
  refine Labelled.straight_append h (hpair.weaken (by omega) ?_)
  rintro t (rfl | ht)
  · exact .inl (by simp)
  · exact .inr ht

theorem labelled_cellTests (rel : Relation) (a b : Var) (n count : Nat) :
    Labelled outer (fun k => n ≤ k ∧ k < n + if rel = .eq ∨ rel = .ne then count else 0)
      (inner (cellTests rel a b n count)) := by
  induction count generalizing n with
  | zero => exact AllStraight.nil.labelled
  | succ count ih =>
    have ihn := ih (n + 1)
    cases rel with
    | eq | ne =>
      have hcell := labelled_cellExits outer n _ (allStraight_compareCell (a := a) (b := b) count)
      cases hc : count == 0 <;>
        simpa [cellTests, cellExits, hc] using
          (hcell.append_range (ihn.mono (fun k hk => show n + 1 ≤ k ∧ k < n + (count + 1) by
            simp at hk; omega)) (by omega) (by omega))
    | gt | ge | lt | le =>
      have hstraight := allStraight_compareCell (a := a) (b := b) count
      cases hc : count == 0 <;>
        simpa [cellTests, cellExits, hc] using
          Labelled.straight_append hstraight (ihn.mono (fun k hk => show n ≤ k ∧ k < n by simp at hk; omega))

theorem labelled_relationTest (outer : String → Prop) (rel : Relation) (a b : Var) (n : Nat) :
    Labelled outer (fun k => n ≤ k ∧ k < n + relationLabels rel a)
      (inner (relationTest rel a b n)) := by
  have h : relationLabels rel a = if rel = .eq ∨ rel = .ne then a.cells else 0 := by
    cases rel <;> rfl
  rw [h, relationTest, inner_line]
  exact Labelled.straight_append (a := [_]) (by simp) (labelled_cellTests rel a b n a.cells)

theorem allStraight_inner_oddTest (v : Var) : AllStraight (inner (oddTest v)) := by
  simp [oddTest]

theorem allStraight_inner_nonzeroTest (v : Var) : AllStraight (inner (nonzeroTest v)) := by
  have h : ∀ addrs : List Nat, AllStraight (inner
      (addrs.flatMap fun addr => [.line (load addr), .line cmp, .exit true .ja])) := by
    intro addrs
    induction addrs with
    | nil => simp
    | cons addr addrs ih => simpa using ih
  simp [nonzeroTest, h]

end Code

/-! ### Conditions -/

section Conditions

open Code

variable {sc : Scope} {s s' : Stock} {c : Cond} {test : List TestLine} {chain : Option Chain}

theorem Labelled.inner_merged (h : Labelled outer own (inner test)) (yes no : Nat)
    (hyes : ¬ own yes) (hno : ¬ own no) (hne : yes ≠ no) :
    Labelled outer (fun k => own k ∨ k = yes ∨ k = no)
      (inner (merged (labelName yes) (labelName no) test)) := by
  let outer' := fun t => t = labelName yes ∨ t = labelName no ∨ outer t
  have hclosed : Labelled outer' own (closeTest (labelName yes) (labelName no) test) :=
    labelled_closeTest (h.widen outer' fun _ ht => .inr (.inr ht)) (.inl rfl) (.inr (.inl rfl))
  have hall := hclosed.append ((Labelled.single yes).append (.single no) (by omega))
    (by rintro k hk (rfl | rfl) <;> contradiction)
  have hinner : inner (merged (labelName yes) (labelName no) test) =
      closeTest (labelName yes) (labelName no) test ++ ([label yes] ++ [label no]) := by
    simp [merged, label]
  rw [hinner]
  refine hall.weaken (fun _ hk => hk) ?_
  rintro t (rfl | rfl | ht)
  · exact .inl (by simp)
  · exact .inl (by simp)
  · exact .inr ht

theorem Labelled.inner_continued (h : Labelled outer own (inner test)) (yes no : String)
    (next : Nat) (hyes : yes = labelName next ∨ outer yes) (hno : no = labelName next ∨ outer no)
    (hnext : ¬ own next) :
    Labelled outer (fun k => own k ∨ k = next)
      (inner (continued yes no (labelName next) test)) := by
  let outer' := fun t => t = labelName next ∨ outer t
  have hclosed : Labelled outer' own (closeTest yes no test) :=
    labelled_closeTest (h.widen outer' fun _ ht => .inr ht) hyes hno
  have hall := hclosed.append (.single next) (by rintro k hk rfl; contradiction)
  have hinner : inner (continued yes no (labelName next) test) =
      closeTest yes no test ++ [label next] := by
    simp [continued, label]
  rw [hinner]
  refine hall.weaken (fun _ hk => hk) ?_
  rintro t (rfl | ht)
  · exact .inl (by simp)
  · exact .inr ht

/-- The labels of a condition: in a chain, also those of the chain before it. -/
theorem Cond.Coded.labelled (h : Cond.Coded sc chain s c test s') (outer : String → Prop) :
    s.labels ≤ s'.labels ∧
    match chain with
    | none => Labelled outer (fun k => s.labels ≤ k ∧ k < s'.labels) (inner test)
    | some chain => ∀ lo y, chain.yes = labelName y → chain.no = labelName (y + 1) → lo ≤ y →
        y + 2 ≤ s.labels →
        Labelled (fun t => t = chain.yes ∨ outer t)
          (fun k => lo ≤ k ∧ k < s.labels ∧ k ≠ y ∧ k ≠ y + 1) (inner chain.test) →
        Labelled outer (fun k => lo ≤ k ∧ k < s'.labels) (inner test) := by
  -- The two labels of a chain are taken before it and set at its end: until then the lines have all
  -- labels from `lo` on but these two.
  induction h with
  | @compare s s₁ s₂ s₃ _ _ rel _ _ _ _ _ a' b' ha hb hm =>
    obtain ⟨hle₁, hl₁⟩ := ha.labelled outer
    obtain ⟨hle₂, hl₂⟩ := hb.labelled outer
    have hrel := labelled_relationTest outer rel a' b' s₃.labels
    have hs := hm.labels_eq
    simp only [Stock.labels_release, Stock.labels_skip, inner_append, inner_map_line]
    refine ⟨by omega, ?_⟩
    have hlines := (hl₁.append_range hl₂ hle₁ hle₂).append_straight hm.straight
    rw [List.append_assoc] at hlines
    rw [← hs] at hlines
    refine hlines.append_range (hrel.append_straight (by simp)) (by omega) (by omega)
  | nonzero h =>
    obtain ⟨hle, hl⟩ := h.labelled outer
    simp only [Stock.labels_release, inner_append, inner_map_line]
    exact ⟨hle, hl.append_straight (by simp [allStraight_inner_nonzeroTest])⟩
  | odd h =>
    obtain ⟨hle, hl⟩ := h.labelled outer
    simp only [Stock.labels_release, inner_append, inner_map_line]
    exact ⟨hle, hl.append_straight (by simp [allStraight_inner_oddTest])⟩
  | group _ ih => exact ih
  | @and s s₁ s₂ _ _ test₁ test₂ _ _ ihl ihr =>
    obtain ⟨hle₁, hl⟩ := ihl
    obtain ⟨hle₂, hr⟩ := ihr
    simp only [Stock.labels_skip] at hle₂ hr hl
    refine ⟨by omega, ?_⟩
    let outer' := fun t => t = labelName (s₁.labels + 1) ∨ outer t
    have hfirst := (hl.widen outer' fun _ ht => .inr ht).inner_continued
      (labelName (s₁.labels + 2)) (labelName (s₁.labels + 1)) (s₁.labels + 2) (.inl rfl)
      (.inr (.inl rfl)) (by omega)
    have hsecond := (hr.widen outer' fun _ ht => .inr ht).inner_merged s₁.labels (s₁.labels + 1)
      (by omega) (by omega) (by omega)
    rw [inner_append]
    refine (hfirst.append hsecond (by omega)).weaken (by omega) ?_
    rintro t (rfl | ht)
    · exact .inl (by simp [merged])
    · exact .inr ht
  | @or s s₁ s₂ _ _ test₁ test₂ _ _ ihl ihr =>
    obtain ⟨hle₁, hl⟩ := ihl
    obtain ⟨hle₂, hr⟩ := ihr
    simp only [Stock.labels_skip] at hle₂ hr hl
    refine ⟨by omega, ?_⟩
    refine hr s.labels s₁.labels rfl rfl hle₁ (by omega) ?_
    exact hl.weaken (by omega) fun _ ht => .inr (.inr ht)
  | @next chain s s₁ s₂ _ _ test₁ test₂ _ _ ihl ihr =>
    obtain ⟨hle₁, hl⟩ := ihl
    obtain ⟨hle₂, hr⟩ := ihr
    simp only [Stock.labels_skip] at hle₁ hr hl
    refine ⟨by omega, fun lo y hyes hno hlo hy hchain => ?_⟩
    refine hr lo y hyes hno hlo (by omega) ?_
    have hfirst := hchain.inner_continued chain.yes (labelName s.labels) s.labels
      (.inr (.inl rfl)) (.inl rfl) (by omega)
    rw [inner_append]
    exact (hfirst.append (hl.widen _ fun _ ht => .inr ht) (by omega)).mono (by omega)
  | @last chain s s' _ test _ _ ih =>
    obtain ⟨hle, hl⟩ := ih
    simp only [Stock.labels_skip] at hle hl
    refine ⟨by omega, fun lo y hyes hno hlo hy hchain => ?_⟩
    have hfirst := hchain.inner_continued chain.yes (labelName s.labels) s.labels
      (.inr (.inl rfl)) (.inl rfl) (by omega)
    have hsecond := (hl.widen (fun t => t = chain.yes ∨ outer t)
      fun _ ht => .inr ht).inner_merged y (y + 1) (by omega) (by omega) (by omega)
    rw [inner_append, hno]
    rw [hyes] at hfirst hsecond ⊢
    refine (hfirst.append hsecond (by omega)).weaken (by omega) ?_
    rintro t (rfl | ht)
    · exact .inl (by simp [merged])
    · exact .inr ht

end Conditions

/-! ### Statements -/

namespace Piece

open Code

variable {n lo hi mid : Nat} {t t' : List TestLine} {body rest : List Piece} {f : Piece → Line}

/-- Lines stay as they are, whatever the calls between them are taken for. -/
theorem map_ofLines (hf : ∀ l, f (line l) = l) (lines : List Line) : (ofLines lines).map f = lines := by
  simp [ofLines, Function.comp_def, hf]

theorem labelled_ifThen (hf : ∀ l, f (line l) = l)
    (ht : Labelled outer (fun k => n + 3 ≤ k ∧ k < mid) (inner t))
    (hb : Labelled outer (fun k => mid ≤ k ∧ k < hi) (body.map f)) (hmid : n + 3 ≤ mid)
    (hhi : mid ≤ hi) :
    Labelled outer (fun k => n ≤ k ∧ k < hi) ((ifThen n t body).map f) := by
  have hlines : (ifThen n t body).map f = closeTest (labelName n) (labelName (n + 2)) t
      ++ ([label n] ++ (body.map f ++ [label (n + 2)])) := by
    simp [ifThen, test, mark, map_ofLines hf, hf]
  let names := [labelName n, labelName (n + 2)]
  have htest := labelled_closeTest (ht.inside names) (.inl (List.mem_cons_self ..))
    (.inl (List.getLast_mem (by simp)))
  have hall := htest.append ((Labelled.single n).append ((hb.inside names).append
    (.single (n + 2)) (by omega)) (by omega)) (by omega)
  rw [hlines]
  exact hall.close (by omega) (by simp [names])

/-- The names of `count` labels from number `n` on. -/
def numbered (n count : Nat) : List String := (List.range count).map fun i => labelName (n + i)

theorem mem_numbered {n count i : Nat} (h : i < count) : labelName (n + i) ∈ numbered n count :=
  List.mem_map.2 ⟨i, List.mem_range.2 h, rfl⟩

theorem forall_numbered {n count : Nat} {P : String → Prop} (h : ∀ i < count, P (labelName (n + i))) :
    ∀ t ∈ numbered n count, P t := by
  intro t ht
  obtain ⟨i, hi, rfl⟩ := List.mem_map.1 ht
  exact h i (List.mem_range.1 hi)

theorem labelled_ifElse (hf : ∀ l, f (line l) = l)
    (ht : Labelled outer (fun k => n + 3 ≤ k ∧ k < lo) (inner t))
    (hb : Labelled outer (fun k => lo ≤ k ∧ k < mid) (body.map f))
    (hr : Labelled outer (fun k => mid ≤ k ∧ k < hi) (rest.map f)) (hlo : n + 3 ≤ lo)
    (hmid : lo ≤ mid) (hhi : mid ≤ hi) :
    Labelled outer (fun k => n ≤ k ∧ k < hi) ((ifElse n t body rest).map f) := by
  have hlines : (ifElse n t body rest).map f = closeTest (labelName n) (labelName (n + 1)) t
      ++ ([label n] ++ (body.map f ++ ([jump .jmp (labelName (n + 2))]
        ++ ([label (n + 1)] ++ (rest.map f ++ [label (n + 2)]))))) := by
    simp [ifElse, test, mark, goto, map_ofLines hf, hf]
  have hmem : ∀ i < 3, labelName (n + i) ∈ numbered n 3 ∨ outer (labelName (n + i)) :=
    fun i hi => .inl (mem_numbered hi)
  have htest := labelled_closeTest (ht.inside (numbered n 3)) (hmem 0 (by omega)) (hmem 1 (by omega))
  have hrest := (Labelled.single (n + 1)).append ((hr.inside (numbered n 3)).append
    (.single (n + 2)) (by omega)) (by omega)
  have hall := htest.append ((Labelled.single n).append ((hb.inside (numbered n 3)).append
    (.none_append (.jump .jmp (hmem 2 (by omega))) hrest) (by omega)) (by omega)) (by omega)
  rw [hlines]
  refine hall.close (by omega) (forall_numbered fun i hi => ?_)
  obtain rfl | rfl | rfl : i = 0 ∨ i = 1 ∨ i = 2 := by omega
  all_goals simp

theorem labelled_whileDo (hf : ∀ l, f (line l) = l)
    (ht : Labelled outer (fun k => n + 3 ≤ k ∧ k < mid) (inner t))
    (hb : Labelled outer (fun k => mid ≤ k ∧ k < hi) (body.map f)) (hmid : n + 3 ≤ mid)
    (hhi : mid ≤ hi) :
    Labelled outer (fun k => n ≤ k ∧ k < hi) ((whileDo n t body).map f) := by
  have hlines : (whileDo n t body).map f = [label n]
      ++ (closeTest (labelName (n + 1)) (labelName (n + 2)) t ++ ([label (n + 1)]
        ++ (body.map f ++ ([jump .jmp (labelName n)] ++ [label (n + 2)])))) := by
    simp [whileDo, test, mark, goto, map_ofLines hf, hf]
  have hmem : ∀ i < 3, labelName (n + i) ∈ numbered n 3 ∨ outer (labelName (n + i)) :=
    fun i hi => .inl (mem_numbered hi)
  have htest := labelled_closeTest (ht.inside (numbered n 3)) (hmem 1 (by omega)) (hmem 2 (by omega))
  have hbody := (Labelled.single (n + 1)).append ((hb.inside (numbered n 3)).append
    (.none_append (.jump .jmp (hmem 0 (by omega))) (.single (n + 2))) (by omega)) (by omega)
  have hall := (Labelled.single n).append (htest.append hbody (by omega)) (by omega)
  rw [hlines]
  refine hall.close (by omega) (forall_numbered fun i hi => ?_)
  obtain rfl | rfl | rfl : i = 0 ∨ i = 1 ∨ i = 2 := by omega
  all_goals simp

theorem labelled_repeatUntil (hf : ∀ l, f (line l) = l)
    (hb : Labelled outer (fun k => n + 2 ≤ k ∧ k < mid) (body.map f))
    (ht : Labelled outer (fun k => mid ≤ k ∧ k < hi) (inner t)) (hmid : n + 2 ≤ mid)
    (hhi : mid ≤ hi) :
    Labelled outer (fun k => n ≤ k ∧ k < hi) ((repeatUntil n body t).map f) := by
  have hlines : (repeatUntil n body t).map f = [label n]
      ++ (body.map f ++ (closeTest (labelName (n + 1)) (labelName n) t ++ [label (n + 1)])) := by
    simp [repeatUntil, test, mark, map_ofLines hf, hf]
  have hmem : ∀ i < 2, labelName (n + i) ∈ numbered n 2 ∨ outer (labelName (n + i)) :=
    fun i hi => .inl (mem_numbered hi)
  have htest := labelled_closeTest (ht.inside (numbered n 2)) (hmem 1 (by omega)) (hmem 0 (by omega))
  have hall := (Labelled.single n).append ((hb.inside (numbered n 2)).append
    (htest.append (.single (n + 1)) (by omega)) (by omega)) (by omega)
  rw [hlines]
  refine hall.close (by omega) (forall_numbered fun i hi => ?_)
  obtain rfl | rfl : i = 0 ∨ i = 1 := by omega
  all_goals simp

theorem labelled_forLoop (hf : ∀ l, f (line l) = l) {step : List Line}
    (ht : Labelled outer (fun k => n + 4 ≤ k ∧ k < lo) (inner t))
    (hb : Labelled outer (fun k => lo ≤ k ∧ k < mid) (body.map f))
    (ht' : Labelled outer (fun k => mid ≤ k ∧ k < hi) (inner t')) (hs : AllStraight step)
    (hlo : n + 4 ≤ lo) (hmid : lo ≤ mid) (hhi : mid ≤ hi) :
    Labelled outer (fun k => n ≤ k ∧ k < hi) ((forLoop n t body t' step).map f) := by
  have hlines : (forLoop n t body t' step).map f = [label n]
      ++ (closeTest (labelName (n + 3)) (labelName (n + 1)) t ++ ([label (n + 1)]
        ++ (body.map f ++ (closeTest (labelName (n + 3)) (labelName (n + 2)) t'
          ++ ([label (n + 2)] ++ (step ++ ([jump .jmp (labelName n)] ++ [label (n + 3)]))))))) := by
    simp [forLoop, test, mark, goto, map_ofLines hf, hf]
  have hmem : ∀ i < 4, labelName (n + i) ∈ numbered n 4 ∨ outer (labelName (n + i)) :=
    fun i hi => .inl (mem_numbered hi)
  have hpast := labelled_closeTest (ht.inside (numbered n 4)) (hmem 3 (by omega)) (hmem 1 (by omega))
  have hdone := labelled_closeTest (ht'.inside (numbered n 4)) (hmem 3 (by omega)) (hmem 2 (by omega))
  have hend : Labelled (fun t => t ∈ numbered n 4 ∨ outer t) (fun k => k = n + 2 ∨ k = n + 3)
      ([label (n + 2)] ++ (step ++ ([jump .jmp (labelName n)] ++ [label (n + 3)]))) :=
    (Labelled.single (n + 2)).append (.straight_append hs
      (.none_append (.jump .jmp (hmem 0 (by omega))) (.single (n + 3)))) (by omega)
  have hbody := (hb.inside (numbered n 4)).append (hdone.append hend (by omega)) (by omega)
  have hall := (Labelled.single n).append (hpast.append ((Labelled.single (n + 1)).append hbody
    (by omega)) (by omega)) (by omega)
  rw [hlines]
  refine hall.close (by omega) (forall_numbered fun i hi => ?_)
  obtain rfl | rfl | rfl | rfl : i = 0 ∨ i = 1 ∨ i = 2 ∨ i = 3 := by omega
  all_goals simp

end Piece

/-- The labels of a statement without inline assembly, whatever its calls are taken for. -/
theorem Stmt.Coded.labelled_of {sc : Scope} {s s' : Stock} {st : Stmt} {code : List Piece}
    (h : Stmt.Coded sc s st code s') (hst : st.asmFree = true) (outer : String → Prop)
    {f : Piece → Line} (hf : ∀ l, f (.line l) = l)
    (hcall : ∀ p ret, sc.hasProcedure p = true →
      Labelled outer (fun _ => False) [f (.call p ret)]) :
    s.labels ≤ s'.labels
      ∧ Labelled outer (fun k => s.labels ≤ k ∧ k < s'.labels) (code.map f) := by
  induction h with
  | skip => exact ⟨Nat.le_refl _, AllStraight.nil.labelled⟩
  | nop => exact ⟨Nat.le_refl _, AllStraight.labelled (by simp [hf, Line.IsStraight])⟩
  | asm => cases hst
  | block _ ih => exact ih hst
  | seq _ _ ihf ihr =>
    obtain ⟨hfirst, hrest⟩ := Bool.and_eq_true_iff.1 hst
    replace ihf := ihf hfirst
    replace ihr := ihr hrest
    rw [List.map_append]
    exact ⟨ihf.1.trans ihr.1, ihf.2.append_range ihr.2 ihf.1 ihr.1⟩
  | assign _ hv | output hv =>
    obtain ⟨hle, hl⟩ := hv.labelled outer
    rw [Piece.map_ofLines hf, Stock.labels_release]
    exact ⟨hle, hl.append_straight (by simp)⟩
  | setElement _ hi hv hc ho =>
    obtain ⟨hle₁, hl₁⟩ := hi.labelled outer
    obtain ⟨hle₂, hl₂⟩ := hv.labelled outer
    rw [Piece.map_ofLines hf]
    simp only [Stock.labels_release, ho.labels_eq, hc.labels_eq]
    exact ⟨hle₁.trans hle₂, hl₁.append_range (hl₂.append_straight (by simp [hc.straight])) hle₁ hle₂⟩
  | fillList | fillText | copyArray | input =>
    rw [Piece.map_ofLines hf]
    exact ⟨Nat.le_refl _, AllStraight.labelled (by simp)⟩
  | @step _ op _ v _ =>
    rw [Piece.map_ofLines hf]
    exact ⟨Nat.le_refl _, AllStraight.labelled (by cases op <;> simp [StepOp.code])⟩
  | @call s p hp =>
    refine ⟨Nat.le_add_right .., ?_⟩
    rw [List.map_cons, List.map_singleton, Piece.mark, hf]
    exact (Labelled.none_append (hcall _ _ hp) (.single s.labels)).mono
      (by simp only [Stock.labels_skip]; omega)
  | ifThen hc _ ih =>
    replace ih := ih hst
    obtain ⟨hle, hl⟩ := hc.labelled outer
    simp only [Stock.labels_skip] at hle hl
    exact ⟨by omega, Piece.labelled_ifThen hf hl ih.2 hle ih.1⟩
  | ifElse hc _ _ ihy ihn =>
    obtain ⟨hy, hn⟩ := Bool.and_eq_true_iff.1 hst
    replace ihy := ihy hy
    replace ihn := ihn hn
    obtain ⟨hle, hl⟩ := hc.labelled outer
    simp only [Stock.labels_skip] at hle hl
    exact ⟨by omega, Piece.labelled_ifElse hf hl ihy.2 ihn.2 hle ihy.1 ihn.1⟩
  | whileDo hc _ ih =>
    replace ih := ih hst
    obtain ⟨hle, hl⟩ := hc.labelled outer
    simp only [Stock.labels_skip] at hle hl
    exact ⟨by omega, Piece.labelled_whileDo hf hl ih.2 hle ih.1⟩
  | repeatUntil _ hc ih =>
    replace ih := ih hst
    obtain ⟨hle, hl⟩ := hc.labelled outer
    simp only [Stock.labels_skip] at ih
    exact ⟨by omega, Piece.labelled_repeatUntil hf ih.2 hl ih.1 hle⟩
  | @forDo s s₁ s₂ s₃ s₄ _ down _ _ _ v start bound limit lines₁ lines₂ _ _ hfirst hl ht _ _ ih =>
    replace ih := ih hst
    obtain ⟨hle₁, hl₁⟩ := hfirst.labelled outer
    obtain ⟨hle₂, hl₂⟩ := hl.labelled outer
    have hs := ht.labels_eq
    simp only [Stock.labels_skip, Stock.labels_release] at ih hle₂ hl₂
    rw [List.map_append, List.map_append, Piece.map_ofLines hf, Piece.map_ofLines hf]
    simp only [Stock.labels_release, Stock.labels_skip]
    refine ⟨by omega, ?_⟩
    -- First the counter and the limit, and then the loop.
    have hhead : Labelled outer (fun k => s.labels ≤ k ∧ k < s₂.labels)
        (lines₁ ++ (Code.resize start v ++ (freeLines start ++ (lines₂
          ++ (Code.resize bound limit ++ freeLines bound))))) :=
      hl₁.append_range (.straight_append (by simp) (.straight_append (by simp)
        (hl₂.append_straight (by simp)))) hle₁ hle₂
    have hloop := Piece.labelled_forLoop hf
      (Code.labelled_relationTest outer (.past down) v limit (s₃.labels + 4)) ih.2
      (Code.labelled_relationTest outer .eq v limit s₄.labels)
      (Code.allStraight_advanceCounter (v := v) down) (by omega) ih.1 (by omega)
    rw [← hs] at hhead
    exact hhead.append_range (hloop.append_straight (by simp)) (by omega) (by omega)

/-- The labels of a statement without inline assembly. -/
theorem Stmt.Coded.labelled {sc : Scope} {s s' : Stock} {st : Stmt} {code : List Piece}
    (h : Stmt.Coded sc s st code s') (hst : st.asmFree = true) (outer : String → Prop)
    (houter : ∀ p, sc.hasProcedure p = true → outer (Gen.procedureLabel p)) :
    s.labels ≤ s'.labels
      ∧ Labelled outer (fun k => s.labels ≤ k ∧ k < s'.labels) (code.map Piece.plain) :=
  h.labelled_of hst outer (fun _ => rfl) fun p _ hp => .jump .jmp (houter p hp)

end NibblePascal
