import NibblePascal.Proofs.Fragments.Scalar
import NibblePascal.Proofs.Machine.Jumps

/-!
# Code for ports

Scalars are exchanged with the ports a digit at a time: the lowest cell goes out, and what
comes in has a single cell.  The prologue resets the output ports and enters the main block.
-/

namespace NibblePascal

theorem State.perform_out (s : State) {port : Nat} (h : port < 16) :
    s.perform (.inst (.out port)) = some { s with out := s.out.setIfInBounds port s.acc } := by
  have hset : s.out.set port s.acc h = s.out.setIfInBounds port s.acc := by
    ext i hi
    simp [Vector.getElem_set, Vector.getElem_setIfInBounds]
  simp [perform, exec, h, hset]

theorem State.perform_inp (s : State) {port : Nat} (h : port < 16) :
    s.perform (.inst (.inp port)) = some { s with acc := s.inp[port]?.getD 0 } := by
  have hget : s.inp.get ⟨port, h⟩ = s.inp[port]?.getD 0 := by
    rw [Vector.getElem?_eq_getElem h, Option.getD_some]
    rfl
  simp [perform, exec, h, hget]

namespace Code

variable {image : Image} {ρ : String → Nat} {m : Memory} {out inp : Vector Nat 16} {v : Var}
  {port pc : Nat}

/-- The lowest cell goes to a port. -/
theorem leads_output (hm : m.Nibbles) (hv : v.Placed) (hport : port < 16)
    (hold : image.Holds ρ pc (output port v)) :
    image.Leads ⟨pc, m, out, inp⟩
      ⟨pc + codeSize (output port v), m, out.setIfInBounds port (m.get v % 16), inp⟩ := by
  rintro s ⟨rfl, hb, rfl, rfl, rfl⟩
  have haddr : v.addr < 4096 := Var.cell_lt hv v.cells_pos
  have hdigit : s.mem.get v % 16 = s.mem.read v.addr := by
    rw [← Memory.number_one, ← Memory.number_mod hm (Nat.succ_le_of_lt v.cells_pos)]
    rfl
  have hperform : s.performAll (output port v) =
      some { s with
        acc := s.mem.read v.addr
        out := s.out.setIfInBounds port (s.mem.read v.addr) } := by
    simp [output, Var.cell, hb, haddr, State.perform_out _ hport]
  exact ⟨_, _, Image.steps_of_performAll hold hperform, ⟨rfl, hb, rfl, by rw [hdigit], rfl⟩⟩

/-- A digit comes from a port. -/
theorem transforms_input (hm : m.Nibbles) (hv : v.Placed) (hport : port < 16)
    (hinp : inp[port]?.getD 0 < 16) :
    ∀ s : State, s.bank = 0 → s.mem = m → s.inp = inp →
      ∃ t, s.performAll (input port v) = some t ∧ t.bank = 0 ∧
        t.mem = m.set v (inp[port]?.getD 0) ∧ t.out = s.out ∧ t.inp = s.inp := by
  rintro s hb rfl rfl
  have haddr : v.addr < 4096 := Var.cell_lt hv v.cells_pos
  obtain ⟨digit, hdigit⟩ : ∃ digit, s.inp[port]?.getD 0 = digit := ⟨_, rfl⟩
  rw [hdigit] at hinp ⊢
  have hfirst : s.performAll [.inst (.inp port), store (v.cell 0)] =
      some { s with acc := digit, mem := s.mem.write v.addr digit } := by
    simp [Var.cell, State.perform_inp _ hport, hb, haddr, hdigit]
  have hstores : Stores s { s with acc := digit, mem := s.mem.write v.addr digit }
      (v.addr + 0) digit := ⟨rfl, rfl, rfl, rfl⟩
  have hfill := (Filling.start hb hm v.addr).next hstores hinp
  have hnum : (s.mem.write v.addr digit).number v.addr (0 + 1) = digit := by
    simpa using hstores.number_eq haddr
  have hbound : digit < 16 ^ v.cells :=
    hinp.trans_le (Nat.le_self_pow v.cells_pos.ne' 16)
  by_cases hone : 1 < v.cells
  · obtain ⟨u, htu, hfill', hnum'⟩ := performAll_clearFrom hv hone.le hfill
    refine ⟨u, ?_, hfill'.bank, hfill'.mem_eq hv ?_, hfill'.out, hfill'.inp⟩
    · rw [input, State.performAll_append, hfirst, if_pos hone]
      exact htu
    · rw [hnum', hnum, Nat.mod_eq_of_lt hbound]
  · have hcells : v.cells = 0 + 1 := by
      have := v.cells_pos
      omega
    refine ⟨_, ?_, hfill.bank, (hcells ▸ hfill).mem_eq hv ?_, hfill.out, hfill.inp⟩
    · rw [input, State.performAll_append, hfirst, if_neg hone]
      rfl
    · rw [hcells, hnum, ← hcells, Nat.mod_eq_of_lt hbound]

end Code

end NibblePascal
