import NibblePascal.Code.Return
import NibblePascal.Proofs.Fragments.Scalar
import NibblePascal.Proofs.Machine.Jumps

/-!
# Code for calls and returns

A call and a return are followed step by step, since a run may be cut off anywhere in them.

* `image.Exits lo hi leaves dest Q s`: the run from `s` stays between the positions `lo` and `hi`,
  until an instruction that `leaves` leads it to `dest`, in a state with `Q`;
* `exits_selectCall`: a call sets the selector and jumps into the procedure;
* `exits_returnDispatch`: a return leads to the label whose number the selector holds.
-/

namespace NibblePascal

namespace Image

/-- The run stays between two positions without unconditional jumps, until an instruction that
`leaves` takes it to `dest`, in a state with `Q`. -/
inductive Exits (image : Image) (lo hi : Nat) (leaves : Nat → Instruction → Prop) (dest : Nat)
    (Q : State → Prop) : State → Prop
  | leave {s t : State} {op : Op} (hlo : lo ≤ s.pc) (hhi : s.pc < hi)
      (hop : image.ops[s.pc]? = some op) (hleaves : leaves s.pc op.inst)
      (hstep : image.step? s = some t) (hpc : t.pc = dest) (hQ : Q t) :
      Exits image lo hi leaves dest Q s
  | stay {s t : State} {op : Op} (hlo : lo ≤ s.pc) (hhi : s.pc < hi)
      (hop : image.ops[s.pc]? = some op) (hstays : ∀ target, op.inst ≠ .jump .jmp target)
      (hstep : image.step? s = some t) (hnext : Exits image lo hi leaves dest Q t) :
      Exits image lo hi leaves dest Q s

namespace Exits

variable {image : Image} {ρ : String → Nat} {lo hi dest : Nat} {leaves : Nat → Instruction → Prop}
  {Q : State → Prop} {s t : State} {lines : List Line} {kind : JumpKind} {target : String} {d : Nat}

theorem pc_mem (h : image.Exits lo hi leaves dest Q s) : lo ≤ s.pc ∧ s.pc < hi := by
  cases h with
  | leave hlo hhi | stay hlo hhi => exact ⟨hlo, hhi⟩

/-- In the end the run comes to the exit, and up to then it stays between the positions. -/
theorem exists_steps (h : image.Exits lo hi leaves dest Q s) :
    ∃ n t, image.steps (n + 1) s = some t ∧ t.pc = dest ∧ Q t ∧
      ∀ k ≤ n, ∃ u, image.steps k s = some u ∧ lo ≤ u.pc ∧ u.pc < hi := by
  induction h with
  | leave hlo hhi _ _ hstep hpc hQ =>
    refine ⟨0, _, by rw [steps_succ, hstep]; rfl, hpc, hQ, fun k hk => ?_⟩
    rw [Nat.le_zero.1 hk]
    exact ⟨_, rfl, hlo, hhi⟩
  | stay hlo hhi _ _ hstep _ ih =>
    obtain ⟨n, t, hsteps, hpc, hQ, hwithin⟩ := ih
    refine ⟨n + 1, t, by rw [steps_succ, hstep]; exact hsteps, hpc, hQ, fun k hk => ?_⟩
    cases k with
    | zero => exact ⟨_, rfl, hlo, hhi⟩
    | succ k =>
      obtain ⟨u, hu, hmem⟩ := hwithin k (Nat.le_of_succ_le_succ hk)
      exact ⟨u, by rw [steps_succ, hstep]; exact hu, hmem⟩

theorem mono {Q' : State → Prop} (h : image.Exits lo hi leaves dest Q s)
    (hQ : ∀ t, t.pc = dest → Q t → Q' t) : image.Exits lo hi leaves dest Q' s := by
  induction h with
  | leave hlo hhi hop hleaves hstep hpc hq =>
    exact .leave hlo hhi hop hleaves hstep hpc (hQ _ hpc hq)
  | stay hlo hhi hop hstays hstep _ ih => exact .stay hlo hhi hop hstays hstep ih

/-- Straight code comes first. -/
theorem of_performAll {pc : Nat} (hold : image.Holds ρ pc lines) (hlo : lo ≤ pc)
    (hhi : pc + codeSize lines ≤ hi) (h : s.performAll lines = some t)
    (hnext : image.Exits lo hi leaves dest Q { t with pc := pc + codeSize lines }) :
    image.Exits lo hi leaves dest Q { s with pc := pc } := by
  induction lines generalizing s pc with
  | nil =>
    cases h
    exact hnext
  | cons l lines ih =>
    obtain ⟨u, hu, hut⟩ := Option.bind_eq_some_iff.1 h
    cases l with
    | inst i =>
      obtain ⟨hop, hold⟩ := hold
      have hstep : image.step? { s with pc := pc } = some { u with pc := pc + 1 } := by
        simp only [step?, hop, State.exec_of_perform hu (pc + 1) (destination ρ i)]
      rw [codeSize_inst, Nat.add_comm _ 1, ← Nat.add_assoc] at hhi hnext
      refine .stay hlo (by simp only; omega) hop ?_ hstep (ih hold (by omega) hhi hut hnext)
      rintro name rfl
      cases hu
    | label name =>
      cases hu
      exact ih hold.2 hlo hhi hut hnext
    | comment | release | endProc =>
      cases hu
      exact ih hold hlo hhi hut hnext
    | raw => cases hu

/-- A jump that is taken. -/
theorem of_taken (hop : image.ops[s.pc]? = some ⟨.jump kind target, dest⟩)
    (htaken : kind.taken s.flags = true) (hlo : lo ≤ s.pc) (hhi : s.pc < hi)
    (hleaves : leaves s.pc (.jump kind target)) (hQ : Q { s with pc := dest }) :
    image.Exits lo hi leaves dest Q s :=
  .leave hlo hhi hop hleaves (by rw [step?_jump hop, if_pos htaken]) rfl hQ

/-- A jump that is not taken. -/
theorem of_passed (hop : image.ops[s.pc]? = some ⟨.jump kind target, d⟩)
    (hpassed : kind.taken s.flags = false) (hlo : lo ≤ s.pc) (hhi : s.pc < hi)
    (hnext : image.Exits lo hi leaves dest Q { s with pc := s.pc + 1 }) :
    image.Exits lo hi leaves dest Q s := by
  refine .stay hlo hhi hop ?_ (by rw [step?_jump hop, if_neg (by simp [hpassed])]) hnext
  rintro name heq
  cases heq
  cases hpassed

end Exits

/-! ### Calls -/

variable {image : Image} {ρ : String → Nat} {lo hi d k : Nat} {s s₀ : State} {v : Var}
  {target ret : String}

/-- A call with one place to return to. -/
theorem exits_jump (hop : image.ops[s.pc]? = some ⟨.jump .jmp target, d⟩) :
    image.Exits s.pc (s.pc + 1) (fun pc i => pc + 1 = s.pc + 1 ∧ i = .jump .jmp target) d
      (fun t => t.bank = s.bank ∧ t.mem = s.mem) s :=
  .of_taken hop rfl le_rfl (Nat.lt_succ_self _) ⟨rfl, rfl⟩ ⟨rfl, rfl⟩

/-- A call sets the selector first. -/
theorem exits_selectCall
    (hold : image.Holds ρ s.pc (Code.selectCall v k ++ [Code.jump .jmp target])) (hv : v.Placed) (hb : s.bank = 0) :
    image.Exits s.pc (s.pc + 3) (fun pc i => pc + 1 = s.pc + 3 ∧ i = .jump .jmp target) (ρ target)
      (fun t => t.bank = 0 ∧ t.mem = s.mem.write v.addr (k % 16)) s := by
  obtain ⟨hselect, hop, -⟩ := (holds_append ..).1 hold
  have haddr : v.addr < 4096 := Var.cell_lt hv v.cells_pos
  have hperform : s.performAll (Code.selectCall v k) =
      some { s with acc := k % 16, mem := s.mem.write v.addr (k % 16) } := by
    have himm : s.perform (.inst (.lda (.imm k))) = some { s with acc := k % 16 } := rfl
    have hstore := State.perform_store { s with acc := k % 16 } hb haddr
    rw [Code.selectCall, State.performAll_cons, himm, Option.bind_some, State.performAll_cons,
      hstore]
    rfl
  refine Exits.of_performAll hselect le_rfl (by simp [Code.selectCall, Code.store]) hperform ?_
  exact .of_taken hop rfl (by simp) (by simp [Code.selectCall, Code.store]) ⟨rfl, rfl⟩ ⟨hb, rfl⟩

/-! ### Returns -/

/-- The state with the next number up in the accumulator, ready for the next label. -/
structure Counting (s₀ : State) (j : Nat) (s : State) : Prop where
  same : s₀.Same s
  acc : s.acc = j
  zero : s.flags.zero = (j == 0)
  carry : s.flags.carry = false
  bl : s.bl = 1

theorem Counting.at_pc {j : Nat} (h : Counting s₀ j s) (pc : Nat) :
    Counting s₀ j { s with pc := pc } :=
  ⟨⟨h.same.bank, h.same.mem, h.same.out, h.same.inp⟩, h.acc, h.zero, h.carry, h.bl⟩

/-- One is taken off without a borrow from before. -/
theorem apply_sub_one {x : Nat} (hx : x < 16) (zero : Bool) :
    AluOp.sub.apply x 1 ⟨false, zero⟩ = ((x + 15) % 16, ⟨x == 0, x == 1⟩) := by
  revert x zero
  decide

/-- Count one down. -/
theorem Counting.sub {j : Nat} (h : Counting s₀ (j + 1) s) (hj : j + 1 < 16) :
    ∃ t, s.performAll [Code.alu .sub] = some t ∧ Counting s₀ j t := by
  obtain ⟨hsame, hacc, -, hcarry, hbl⟩ := h
  have happly : AluOp.sub.apply s.acc s.bl s.flags = (j, ⟨false, j == 0⟩) := by
    have hflags : s.flags = ⟨false, s.flags.zero⟩ := by rw [← hcarry]
    rw [hflags, hacc, hbl, apply_sub_one hj, Nat.add_assoc, Nat.add_mod_right,
      Nat.mod_eq_of_lt (by omega)]
    simp
  refine ⟨{ s with acc := j, flags := ⟨false, j == 0⟩ }, ?_, ?_⟩
  · rw [State.performAll_cons, State.perform_alu, happly]
    rfl
  · exact ⟨⟨hsame.bank, hsame.mem, hsame.out, hsame.inp⟩, rfl, rfl, rfl, hbl⟩

theorem exits_returnCascade {labels : List String} {j : Nat}
    (hold : image.Holds ρ s.pc (Code.returnCascade labels))
    (hlen : labels.length ≤ 16) (hret : labels[j]? = some ret) (hs : Counting s₀ j s)
    (hlo : lo ≤ s.pc) (hhi : s.pc + codeSize (Code.returnCascade labels) ≤ hi) :
    image.Exits lo hi (fun _ i => ∃ kind, i = .jump kind ret) (ρ ret) s₀.Same s := by
  have hexit : s₀.Same { s with pc := ρ ret } := (hs.at_pc (ρ ret)).same
  induction labels generalizing j s with
  | nil => cases hret
  | cons first rest ih =>
    -- The last label of all needs no test.
    match rest, j with
    | [], 0 =>
      cases hret
      exact .of_taken hold.1 rfl hlo hhi ⟨_, rfl⟩ hexit
    | second :: rest, 0 =>
      obtain rfl : first = ret := Option.some.inj hret
      have hop : image.ops[s.pc]? = some ⟨.jump .jz first, ρ first⟩ := by
        cases rest <;> exact hold.1
      have hsize : s.pc < hi := by
        cases rest <;> simp [Code.returnCascade] at hhi <;> omega
      exact .of_taken hop hs.zero hlo hsize ⟨_, rfl⟩ hexit
    | [last], 1 =>
      cases hret
      obtain ⟨hop, hop', -⟩ := hold
      have hsize : s.pc + 2 ≤ hi := hhi
      refine .of_passed hop hs.zero hlo (by omega) ?_
      exact .of_taken hop' rfl (Nat.le_succ_of_le hlo) hsize ⟨_, rfl⟩ hexit
    | second :: third :: rest, j + 1 =>
      obtain ⟨hop, hsub, hrest⟩ := hold
      have hj : j + 1 < 16 := (List.getElem?_eq_some_iff.1 hret).1.trans_le hlen
      have hcode : codeSize (Code.returnCascade (first :: second :: third :: rest)) =
          codeSize (Code.returnCascade (second :: third :: rest)) + 2 := rfl
      refine .of_passed hop hs.zero hlo (by omega) ?_
      obtain ⟨t, ht, hcount⟩ := hs.sub hj
      have hsize : codeSize [Code.alu .sub] = 1 := rfl
      have halu : image.Holds ρ (s.pc + 1) [Code.alu .sub] := ⟨hsub, trivial⟩
      refine Exits.of_performAll halu (by omega) (by omega) ht ?_
      refine ih hrest ((Nat.le_succ _).trans hlen) hret (hcount.at_pc _) ?_ ?_ (hcount.at_pc _).same
      · simp only [hsize]
        omega
      · simp only [hsize]
        omega
    | [], _ + 1 | [_], _ + 2 => simp at hret

/-- A return leads to the label whose number the selector holds. -/
theorem exits_returnDispatch {labels : List String}
    (hold : image.Holds ρ s.pc (Code.returnDispatch v labels)) (hv : v.Placed) (hb : s.bank = 0)
    (hlen : labels.length ≤ 16) (hret : labels[k]? = some ret)
    (hk : 1 < labels.length → s.mem.read v.addr = k) :
    image.Exits s.pc (s.pc + codeSize (Code.returnDispatch v labels))
      (fun _ i => ∃ kind, i = .jump kind ret) (ρ ret) s.Same s := by
  cases labels with
  | nil => cases hret
  | cons first rest =>
  cases rest with
  | nil =>
    obtain rfl : first = ret := by
      cases k with
      | zero => exact Option.some.inj hret
      | succ k => cases hret
    exact .of_taken hold.1 rfl le_rfl (Nat.lt_succ_self _) ⟨_, rfl⟩ ⟨rfl, rfl, rfl, rfl⟩
  | cons second rest =>
    have hread := hk (by simp)
    have hlt : k < 16 := (List.getElem?_eq_some_iff.1 hret).1.trans_le hlen
    have haddr : v.addr < 4096 := Var.cell_lt hv v.cells_pos
    obtain ⟨hload, hop, hcascade⟩ := (holds_append s.pc [Code.carry 0, Code.loadImm 1, Code.toLow,
      Code.load v.addr, Code.alu .sub]
      (Code.jump .jb first :: Code.returnCascade (second :: rest))).1 hold
    have hsize : codeSize (Code.returnDispatch v (first :: second :: rest)) =
        6 + codeSize (Code.returnCascade (second :: rest)) := by
      simp [Code.returnDispatch, Code.carry, Code.loadImm, Code.toLow, Code.load, Code.alu]
      omega
    rw [hsize, ← Nat.add_assoc]
    -- One is taken off the number: the borrow tells the first call, and zero the second one.
    have hperform : s.performAll [Code.carry 0, Code.loadImm 1, Code.toLow, Code.load v.addr,
        Code.alu .sub] =
        some { s with acc := (k + 15) % 16, bl := 1, flags := ⟨k == 0, k == 1⟩ } := by
      simp [State.perform_load _ _ haddr, hb, hread, apply_sub_one hlt]
    have hfive : codeSize [Code.carry 0, Code.loadImm 1, Code.toLow, Code.load v.addr,
        Code.alu .sub] = 5 := rfl
    rw [hfive] at hop hcascade
    refine Exits.of_performAll hload le_rfl (by rw [hfive]; omega) hperform ?_
    rw [hfive]
    cases k with
    | zero =>
      obtain rfl : first = ret := Option.some.inj hret
      exact .of_taken hop rfl (Nat.le_add_right ..) (by simp only; omega) ⟨_, rfl⟩
        ⟨rfl, rfl, rfl, rfl⟩
    | succ j =>
      refine .of_passed hop rfl (Nat.le_add_right ..) (by simp only; omega) ?_
      refine exits_returnCascade hcascade ((Nat.le_succ _).trans hlen) hret
        ⟨⟨rfl, rfl, rfl, rfl⟩, ?_, ?_, rfl, rfl⟩ (by simp only; omega) (by simp only; omega)
      · simp only
        omega
      · simp

end Image

end NibblePascal
