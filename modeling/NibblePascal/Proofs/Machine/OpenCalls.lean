import NibblePascal.Proofs.Generation.Program

/-!
# The calls of a run

The machine has no stack.  Which calls are open can be read off a run all the same: a jump to the
label of a procedure opens a call, and a step out of the place where a procedure returns closes the
last call of it.

* `procedureNames lines` and `returnLabels p lines`: the procedures of a program, and the labels
  that stand right behind the calls of one;
* `InBody lines p` and `InDispatch lines p`: the positions of a procedure, and those at its end
  where it returns;
* `image.openCalls lines start n`: the calls that are open after `n` steps, the last one first.
-/

namespace NibblePascal

/-! ### Procedures in the code -/

/-- The procedure that ends at a line. -/
def Line.ended? : Line → Option String
  | .endProc p => some p
  | _ => none

/-- The procedures of a program: their ends are marked. -/
def procedureNames (lines : List Line) : List String := lines.filterMap Line.ended?

/-- The labels that the calls of a procedure return to: each stands right behind the jump of its
call. -/
def returnLabels (p : String) : List Line → List String
  | [] => []
  | l :: rest =>
      (if l = Code.jump .jmp (Gen.procedureLabel p) then
        (rest.head?.bind Line.label?).toList else []) ++ returnLabels p rest

/-- The position where a procedure begins. -/
def bodyStart (lines : List Line) (p : String) : Nat := Image.labelMap lines (Gen.procedureLabel p)

/-- The position behind a procedure. -/
def bodyEnd (lines : List Line) (p : String) : Nat := codeSize (lines.takeWhile (· != .endProc p))

/-- The position where the return of a procedure begins.  The selector makes no difference to the
size of the code. -/
def dispatchStart (lines : List Line) (p : String) : Nat :=
  bodyEnd lines p - codeSize (Code.returnDispatch default (returnLabels p lines))

/-- The positions of a procedure. -/
def InBody (lines : List Line) (p : String) (pos : Nat) : Prop :=
  bodyStart lines p ≤ pos ∧ pos < bodyEnd lines p

/-- The positions where a procedure returns. -/
def InDispatch (lines : List Line) (p : String) (pos : Nat) : Prop :=
  dispatchStart lines p ≤ pos ∧ pos < bodyEnd lines p

instance (lines : List Line) (p : String) (pos : Nat) : Decidable (InDispatch lines p pos) :=
  inferInstanceAs (Decidable (_ ∧ _))

theorem mem_procedureNames {lines : List Line} {p : String} :
    p ∈ procedureNames lines ↔ .endProc p ∈ lines := by
  rw [procedureNames, List.mem_filterMap]
  constructor
  · rintro ⟨l, hl, h⟩
    cases l with
    | endProc q =>
      cases h
      exact hl
    | inst | label | comment | release | raw => cases h
  · exact fun h => ⟨_, h, rfl⟩

/-- Lines without a call of the procedure. -/
theorem returnLabels_append {p : String} {a : List Line}
    (h : Code.jump .jmp (Gen.procedureLabel p) ∉ a) (b : List Line) :
    returnLabels p (a ++ b) = returnLabels p b := by
  induction a with
  | nil => rfl
  | cons l a ih =>
    rw [List.mem_cons, not_or] at h
    rw [List.cons_append, returnLabels, if_neg (Ne.symm h.1), List.nil_append, ih h.2]

/-- A call of the procedure, and its return label. -/
theorem returnLabels_call (p ret : String) (rest : List Line) :
    returnLabels p (Code.jump .jmp (Gen.procedureLabel p) :: .label ret :: rest) =
      ret :: returnLabels p (.label ret :: rest) := by
  rw [returnLabels, if_pos rfl]
  rfl

theorem codeSize_returnDispatch (v v' : Var) (labels : List String) :
    codeSize (Code.returnDispatch v labels) = codeSize (Code.returnDispatch v' labels) := by
  unfold Code.returnDispatch
  split <;> rfl

/-- The end of a procedure, where it is marked once. -/
theorem bodyEnd_eq {p : String} {a b : List Line} (h : .endProc p ∉ a) :
    bodyEnd (a ++ .endProc p :: b) p = codeSize a := by
  have hkeep : ∀ l ∈ a, (l != .endProc p) = true := by
    intro l hl
    rw [bne_iff_ne]
    rintro rfl
    exact h hl
  rw [bodyEnd, List.takeWhile_append_of_pos hkeep, List.takeWhile_cons_of_neg (by simp),
    List.append_nil]

/-! ### Calls as they come and go -/

/-- A call that is open: the procedure, and the position behind the jump. -/
structure OpenCall where
  procedure : String
  back : Nat
deriving DecidableEq

namespace Image

/-- The procedure that the next step calls. -/
def called? (image : Image) (lines : List Line) (s : State) : Option String :=
  match image.ops[s.pc]? with
  | some ⟨.jump .jmp target, _⟩ =>
      (procedureNames lines).find? fun p => Gen.procedureLabel p == target
  | _ => none

/-- The procedure that a step returns from. -/
def returned? (lines : List Line) (s t : State) : Option String :=
  (procedureNames lines).find? fun p =>
    InDispatch lines p s.pc && !decide (InDispatch lines p t.pc)

/-- The open calls after a step: a call comes first, and a return closes the last call of the
procedure. -/
def callsAfter (image : Image) (lines : List Line) (s t : State) (calls : List OpenCall) :
    List OpenCall :=
  match image.called? lines s with
  | some p => ⟨p, s.pc + 1⟩ :: calls
  | none =>
      match returned? lines s t with
      | some p => calls.eraseP (·.procedure == p)
      | none => calls

/-- The open calls after `n` steps. -/
def openCalls (image : Image) (lines : List Line) (start : State) : Nat → List OpenCall
  | 0 => []
  | n + 1 =>
      match image.steps n start, image.steps (n + 1) start with
      | some s, some t => image.callsAfter lines s t (openCalls image lines start n)
      | _, _ => openCalls image lines start n

variable {image : Image} {lines : List Line} {s t : State} {op : Op} {p : String}

theorem called?_eq_none (hop : image.ops[s.pc]? = some op)
    (h : ∀ p, op.inst ≠ .jump .jmp (Gen.procedureLabel p)) : image.called? lines s = none := by
  unfold called?
  rw [hop]
  obtain ⟨i, d⟩ := op
  split
  case h_1 target _ heq =>
    cases heq
    refine List.find?_eq_none.2 fun p _ hp => ?_
    exact h p (by rw [eq_of_beq hp])
  case h_2 => rfl

theorem called?_eq_some {d : Nat}
    (hop : image.ops[s.pc]? = some ⟨.jump .jmp (Gen.procedureLabel p), d⟩)
    (hp : p ∈ procedureNames lines) : image.called? lines s = some p := by
  unfold called?
  rw [hop]
  show (procedureNames lines).find? (fun q => Gen.procedureLabel q == Gen.procedureLabel p) = some p
  cases hfind : (procedureNames lines).find?
      fun q => Gen.procedureLabel q == Gen.procedureLabel p with
  | none => exact absurd (List.find?_eq_none.1 hfind p hp) (by simp)
  | some q =>
    have hlabel : Gen.procedureLabel q = Gen.procedureLabel p := by
      simpa using List.find?_some hfind
    rw [Gen.procedureLabel_injective hlabel]

theorem returned?_eq_none
    (h : ∀ p ∈ procedureNames lines, InDispatch lines p s.pc → InDispatch lines p t.pc) :
    returned? lines s t = none := by
  refine List.find?_eq_none.2 fun p hp => ?_
  have hstay := h p hp
  simp only [Bool.and_eq_true, decide_eq_true_eq, Bool.not_eq_true', decide_eq_false_iff_not]
  exact fun ⟨hs, ht⟩ => ht (hstay hs)

theorem returned?_eq_some (hp : p ∈ procedureNames lines) (hs : InDispatch lines p s.pc)
    (ht : ¬ InDispatch lines p t.pc)
    (hunique : ∀ q ∈ procedureNames lines, InDispatch lines q s.pc → q = p) :
    returned? lines s t = some p := by
  unfold returned?
  cases hfind : (procedureNames lines).find? fun q =>
      InDispatch lines q s.pc && !decide (InDispatch lines q t.pc) with
  | none => exact absurd (List.find?_eq_none.1 hfind p hp) (by simp [hs, ht])
  | some q =>
    have hq := List.find?_some hfind
    simp only [Bool.and_eq_true, decide_eq_true_eq] at hq
    rw [hunique q (List.mem_of_find?_eq_some hfind) hq.1]

/-- One more step. -/
theorem openCalls_succ {start : State} {n : Nat} (hs : image.steps n start = some s)
    (hstep : image.step? s = some t) : image.openCalls lines start (n + 1) =
      image.callsAfter lines s t (image.openCalls lines start n) := by
  have ht : image.steps (n + 1) start = some t := by
    rw [steps_add, hs, Option.bind_some, steps_succ, hstep]
    rfl
  rw [openCalls, hs, ht]

end Image

end NibblePascal
