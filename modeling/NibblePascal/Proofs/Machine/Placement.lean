import NibblePascal.Proofs.Machine.Run

/-!
# Code in its place

An image holds the code of a whole program.  A fragment of the program stands at a position
of the image, and its labels and jumps are read through one map `ρ` from labels to positions.

* `codeSize lines` is the number of instructions of `lines`;
* `image.Holds ρ pc lines` says that `lines` stand in `image` at `pc`;
* `Image.Closed lines`: there is no inline assembly, the labels are distinct and every jump has
  its label; `Closed.exists_image`: such lines have an image that holds them from position 0 on,
  and nothing else.
-/

namespace NibblePascal

/-! ### Labels, targets and sizes -/

/-- The name of a label line. -/
def Line.label? : Line → Option String
  | .label name => some name
  | _ => none

/-- The label that a line jumps to. -/
def Line.target? : Line → Option String
  | .inst (.jump _ target) => some target
  | _ => none

/-- The labels that lines put into the code. -/
def labelNames (lines : List Line) : List String := lines.filterMap Line.label?

/-- The labels that lines jump to. -/
def jumpTargets (lines : List Line) : List String := lines.filterMap Line.target?

/-- The number of instructions of lines. -/
def codeSize (lines : List Line) : Nat := (lines.filterMap Line.inst?).length

@[simp] theorem labelNames_nil : labelNames [] = [] := rfl

@[simp] theorem labelNames_append (a b : List Line) :
    labelNames (a ++ b) = labelNames a ++ labelNames b := List.filterMap_append

@[simp] theorem jumpTargets_nil : jumpTargets [] = [] := rfl

@[simp] theorem jumpTargets_append (a b : List Line) :
    jumpTargets (a ++ b) = jumpTargets a ++ jumpTargets b := List.filterMap_append

@[simp] theorem codeSize_nil : codeSize [] = 0 := rfl

@[simp] theorem codeSize_append (a b : List Line) :
    codeSize (a ++ b) = codeSize a + codeSize b := by
  simp [codeSize]

theorem codeSize_cons (l : Line) (lines : List Line) :
    codeSize (l :: lines) = codeSize [l] + codeSize lines := codeSize_append [l] lines

@[simp] theorem codeSize_inst (i : Instruction) (rest : List Line) :
    codeSize (.inst i :: rest) = codeSize rest + 1 := rfl

@[simp] theorem codeSize_label (name : String) (rest : List Line) :
    codeSize (.label name :: rest) = codeSize rest := rfl

@[simp] theorem codeSize_comment (text : String) (rest : List Line) :
    codeSize (.comment text :: rest) = codeSize rest := rfl

@[simp] theorem codeSize_release (addr : Nat) (rest : List Line) :
    codeSize (.release addr :: rest) = codeSize rest := rfl

@[simp] theorem codeSize_endProc (name : String) (rest : List Line) :
    codeSize (.endProc name :: rest) = codeSize rest := rfl

namespace Image

variable {image : Image} {ρ : String → Nat}

/-! ### Placed lines -/

/-- The position that an instruction jumps to; zero if it is no jump. -/
def destination (ρ : String → Nat) : Instruction → Nat
  | .jump _ target => ρ target
  | _ => 0

/-- The lines stand in the image at a position: their instructions from there on, and every
label where `ρ` says. -/
def Holds (image : Image) (ρ : String → Nat) : Nat → List Line → Prop
  | _, [] => True
  | pc, .inst i :: rest =>
      image.ops[pc]? = some ⟨i, destination ρ i⟩ ∧ Holds image ρ (pc + 1) rest
  | pc, .label name :: rest => ρ name = pc ∧ Holds image ρ pc rest
  | pc, _ :: rest => Holds image ρ pc rest

@[simp] theorem holds_nil (pc : Nat) : image.Holds ρ pc [] := trivial

@[simp] theorem holds_inst (pc : Nat) (i : Instruction) (rest : List Line) :
    image.Holds ρ pc (.inst i :: rest) ↔
      image.ops[pc]? = some ⟨i, destination ρ i⟩ ∧ image.Holds ρ (pc + 1) rest := Iff.rfl

@[simp] theorem holds_label (pc : Nat) (name : String) (rest : List Line) :
    image.Holds ρ pc (.label name :: rest) ↔ ρ name = pc ∧ image.Holds ρ pc rest := Iff.rfl

@[simp] theorem holds_comment (pc : Nat) (text : String) (rest : List Line) :
    image.Holds ρ pc (.comment text :: rest) ↔ image.Holds ρ pc rest := Iff.rfl

@[simp] theorem holds_release (pc addr : Nat) (rest : List Line) :
    image.Holds ρ pc (.release addr :: rest) ↔ image.Holds ρ pc rest := Iff.rfl

@[simp] theorem holds_endProc (pc : Nat) (name : String) (rest : List Line) :
    image.Holds ρ pc (.endProc name :: rest) ↔ image.Holds ρ pc rest := Iff.rfl

theorem holds_append (pc : Nat) (a b : List Line) :
    image.Holds ρ pc (a ++ b) ↔ image.Holds ρ pc a ∧ image.Holds ρ (pc + codeSize a) b := by
  induction a generalizing pc with
  | nil => simp
  | cons l a ih =>
    cases l with
    | inst i =>
      rw [List.cons_append, holds_inst, holds_inst, ih, codeSize_inst, and_assoc,
        Nat.add_right_comm pc 1]
      rfl
    | label name => rw [List.cons_append, holds_label, holds_label, ih, and_assoc]; rfl
    | comment text => exact ih pc
    | release addr => exact ih pc
    | endProc name => exact ih pc
    | raw command param => exact ih pc

/-- The instruction at a place of lines. -/
theorem Holds.exists_inst {pc k : Nat} {lines : List Line} (h : image.Holds ρ pc lines) (hk : k < codeSize lines) :
    ∃ before i after, lines = before ++ .inst i :: after ∧ codeSize before = k
      ∧ image.ops[pc + k]? = some ⟨i, destination ρ i⟩ := by
  induction lines generalizing pc k with
  | nil => exact absurd hk (Nat.not_lt_zero k)
  | cons l lines ih =>
    have hskip : codeSize [l] = 0 → image.Holds ρ pc lines →
        ∃ before i after, l :: lines = before ++ .inst i :: after ∧ codeSize before = k
          ∧ image.ops[pc + k]? = some ⟨i, destination ρ i⟩ := by
      intro hl hrest
      rw [codeSize_cons, hl, Nat.zero_add] at hk
      obtain ⟨before, i, after, rfl, hb, hop⟩ := ih hrest hk
      exact ⟨l :: before, i, after, rfl, by rw [codeSize_cons, hl, hb, Nat.zero_add], hop⟩
    cases l with
    | inst i =>
      cases k with
      | zero => exact ⟨[], i, lines, rfl, rfl, h.1⟩
      | succ k =>
        obtain ⟨before, j, after, rfl, hb, hop⟩ := ih h.2 (Nat.lt_of_succ_lt_succ hk)
        refine ⟨.inst i :: before, j, after, rfl, by rw [codeSize_inst, hb], ?_⟩
        rwa [Nat.add_right_comm] at hop
    | label name => exact hskip rfl h.2
    | comment | release | endProc | raw => exact hskip rfl h

/-- A label of lines stands at one of their places or right behind them. -/
theorem Holds.label_le {pc : Nat} {name : String} {lines : List Line} (h : image.Holds ρ pc lines)
    (hname : name ∈ labelNames lines) : pc ≤ ρ name ∧ ρ name ≤ pc + codeSize lines := by
  obtain ⟨l, hmem, hlabel⟩ := List.mem_filterMap.1 hname
  obtain ⟨before, after, rfl⟩ := List.append_of_mem hmem
  cases l with
  | label other =>
    obtain rfl : other = name := Option.some.inj hlabel
    have hplace := ((holds_append pc before _).1 h).2.1
    rw [hplace, codeSize_append]
    exact ⟨Nat.le_add_right .., by omega⟩
  | inst | comment | release | endProc | raw => cases hlabel

/-! ### Images of whole programs -/

theorem map_fst_labels (pos : Nat) (lines : List Line) :
    (labels pos lines).map Prod.fst = labelNames lines := by
  induction lines generalizing pos with
  | nil => rfl
  | cons l lines ih =>
    cases l with
    | label name => exact congrArg (name :: ·) (ih pos)
    | inst i => exact ih (pos + 1)
    | comment text => exact ih pos
    | release addr => exact ih pos
    | endProc name => exact ih pos
    | raw command param => exact ih pos

/-- The search for a label that is not there keeps what was found before. -/
theorem foldl_target_of_notMem {ls : List (String × Nat)} {name : String}
    (h : name ∉ ls.map Prod.fst) (found : Option Nat) :
    ls.foldl (fun found l => if l.1 == name then some l.2 else found) found = found := by
  induction ls generalizing found with
  | nil => rfl
  | cons l ls ih =>
    rw [List.map_cons, List.mem_cons, not_or] at h
    have hne : (l.1 == name) = false := by simpa using fun e : l.1 = name => h.1 e.symm
    simp only [List.foldl_cons, hne, Bool.false_eq_true, if_false]
    exact ih h.2 found

theorem target?_of_mem {ls : List (String × Nat)} {name : String} {pos : Nat}
    (hnd : (ls.map Prod.fst).Nodup) (h : (name, pos) ∈ ls) : target? ls name = some pos := by
  unfold target?
  generalize (none : Option Nat) = found
  induction ls generalizing found with
  | nil => cases h
  | cons l ls ih =>
    rw [List.map_cons, List.nodup_cons] at hnd
    rcases List.mem_cons.1 h with rfl | h
    · simp only [List.foldl_cons, beq_self_eq_true, if_true]
      exact foldl_target_of_notMem hnd.1 _
    · exact ih hnd.2 h _

/-- The position of every label of a program. -/
def labelMap (lines : List Line) (name : String) : Nat :=
  (target? (labels 0 lines) name).getD 0

/-- An instruction with its jump settled by the labels of a program. -/
theorem resolve?_eq {lines : List Line} (hnd : (labelNames lines).Nodup) {i : Instruction}
    (h : ∀ target, (Line.inst i).target? = some target → target ∈ labelNames lines) :
    resolve? (labels 0 lines) i = some ⟨i, destination (labelMap lines) i⟩ := by
  cases i with
  | jump kind target =>
    have hmem := h target rfl
    rw [← map_fst_labels 0] at hnd hmem
    obtain ⟨⟨name, pos⟩, hl, rfl⟩ := List.mem_map.1 hmem
    have ht := target?_of_mem hnd hl
    simp only [resolve?, destination, labelMap, ht, Option.map_some, Option.getD_some]
  | _ => rfl

theorem mapM_resolve? {lines : List Line} (hnd : (labelNames lines).Nodup)
    (code : List Instruction)
    (h : ∀ i ∈ code, ∀ target, (Line.inst i).target? = some target → target ∈ labelNames lines) :
    code.mapM (resolve? (labels 0 lines)) =
      some (code.map fun i => ⟨i, destination (labelMap lines) i⟩) := by
  induction code with
  | nil => rfl
  | cons i code ih =>
    rw [List.mapM_cons, resolve?_eq hnd (h i List.mem_cons_self),
      ih fun j hj => h j (List.mem_cons_of_mem _ hj)]
    rfl

/-- The labels of a program stand where its label map says. -/
theorem holds_of_ops {lines : List Line} {ops : List Op} (hops : image.ops = ops.toArray)
    (pos : Nat) (hlabels : ∀ name p, (name, p) ∈ labels pos lines → ρ name = p)
    (hdrop : ops.drop pos = (lines.filterMap Line.inst?).map fun i => ⟨i, destination ρ i⟩) :
    image.Holds ρ pos lines := by
  induction lines generalizing pos with
  | nil => trivial
  | cons l lines ih =>
    cases l with
    | inst i =>
      have hcons : ops.drop pos =
          ⟨i, destination ρ i⟩ :: (lines.filterMap Line.inst?).map fun i =>
            ⟨i, destination ρ i⟩ := hdrop
      refine ⟨?_, ih (pos + 1) hlabels ?_⟩
      · rw [hops, List.getElem?_toArray]
        have := congrArg (·[0]?) hcons
        simpa using this
      · rw [← List.drop_drop, hcons]
        rfl
    | label name =>
      exact ⟨hlabels name pos List.mem_cons_self,
        ih pos (fun n p h => hlabels n p (List.mem_cons_of_mem _ h)) hdrop⟩
    | comment text => exact ih pos hlabels hdrop
    | release addr => exact ih pos hlabels hdrop
    | endProc name => exact ih pos hlabels hdrop
    | raw command param => exact ih pos hlabels hdrop

/-- Lines that can be run: every label stands in one place, every jump has its label, and
there is no inline assembly. -/
structure Closed (lines : List Line) : Prop where
  nodup : (labelNames lines).Nodup
  jumps : ∀ t ∈ jumpTargets lines, t ∈ labelNames lines
  noRaw : ∀ l ∈ lines, isRaw l = false

/-- Closed lines have an image that holds them and ends behind them. -/
theorem Closed.exists_image {lines : List Line} (h : Closed lines) :
    ∃ image, ofLines? lines = some image ∧ image.Holds (labelMap lines) 0 lines ∧
      image.ops[codeSize lines]? = none := by
  have hany : lines.any isRaw = false := by
    rw [List.any_eq_false]
    intro l hl
    simp [h.noRaw l hl]
  have hres := mapM_resolve? h.nodup (lines.filterMap Line.inst?) (by
    intro i hi target ht
    obtain ⟨l, hl, hli⟩ := List.mem_filterMap.1 hi
    refine h.jumps target (List.mem_filterMap.2 ⟨l, hl, ?_⟩)
    cases l with
    | inst j =>
      cases hli
      exact ht
    | _ => cases hli)
  refine ⟨⟨((lines.filterMap Line.inst?).map
    fun i => (⟨i, destination (labelMap lines) i⟩ : Op)).toArray⟩, ?_, ?_, ?_⟩
  · simp only [ofLines?, hany, Bool.false_eq_true, if_false, hres, Option.map_some]
  · refine holds_of_ops rfl 0 ?_ rfl
    intro name p hp
    have hkeys : ((labels 0 lines).map Prod.fst).Nodup := by rw [map_fst_labels]; exact h.nodup
    rw [labelMap, target?_of_mem hkeys hp, Option.getD_some]
  · simp [codeSize]

end Image

end NibblePascal
