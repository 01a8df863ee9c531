import NibblePascal.Proofs.Machine.Straight

/-!
# Code with jumps

Straight code that ends in jumps depends on the flags, which points leave open.  So a run is
followed from a state, and the lemmas on `image.Arrives s q` go back from the point `q` over
straight code and over a jump.
-/

namespace NibblePascal

@[simp] theorem codeSize_jump (kind : JumpKind) (target : String) (rest : List Line) :
    codeSize (Code.jump kind target :: rest) = codeSize rest + 1 := rfl

@[simp] theorem codeSize_codeLabel (n : Nat) (rest : List Line) :
    codeSize (Code.label n :: rest) = codeSize rest := rfl

@[simp] theorem codeSize_codeComment (text : String) (rest : List Line) :
    codeSize (Code.comment text :: rest) = codeSize rest := rfl

namespace Image

variable {image : Image} {ρ : String → Nat} {s t : State} {p q r : Point} {lines rest : List Line}

@[simp] theorem holds_jump (pc : Nat) (kind : JumpKind) (target : String) (rest : List Line) :
    image.Holds ρ pc (Code.jump kind target :: rest) ↔
      image.ops[pc]? = some ⟨.jump kind target, ρ target⟩ ∧ image.Holds ρ (pc + 1) rest := Iff.rfl

@[simp] theorem holds_codeLabel (pc n : Nat) (rest : List Line) :
    image.Holds ρ pc (Code.label n :: rest) ↔
      ρ (Code.labelName n) = pc ∧ image.Holds ρ pc rest := Iff.rfl

@[simp] theorem holds_codeComment (pc : Nat) (text : String) (rest : List Line) :
    image.Holds ρ pc (Code.comment text :: rest) ↔ image.Holds ρ pc rest := Iff.rfl

theorem Arrives.here (h : s.At q) : image.Arrives s q := ⟨0, s, rfl, h⟩

theorem Arrives.leads (h : image.Arrives s p) (h' : image.Leads p q) : image.Arrives s q := by
  obtain ⟨m, t, hst, ht⟩ := h
  obtain ⟨n, u, htu, hu⟩ := h' t ht
  exact ⟨m + n, u, steps_trans hst htu, hu⟩

theorem Arrives.of_steps {n : Nat} (h : image.steps n s = some t) (ht : image.Arrives t q) :
    image.Arrives s q := by
  obtain ⟨m, u, htu, hu⟩ := ht
  exact ⟨n + m, u, steps_trans h htu, hu⟩

theorem Arrives.of_performAll (hold : image.Holds ρ s.pc lines)
    (h : s.performAll lines = some t)
    (hq : image.Arrives { t with pc := s.pc + codeSize lines } q) : image.Arrives s q :=
  .of_steps (steps_of_performAll hold h) hq

theorem advances_iff : image.Advances p q ↔
    ∀ s : State, s.bank = 0 → s.point = p → image.Proceeds s q := by
  simp only [Advances, State.at_iff, and_imp]

/-- Straight code that is not empty takes a step at least. -/
theorem Proceeds.of_performAll (hold : image.Holds ρ s.pc lines)
    (hpos : 0 < codeSize lines) (h : s.performAll lines = some t)
    (hq : image.Arrives { t with pc := s.pc + codeSize lines } q) : image.Proceeds s q := by
  obtain ⟨n, u, htu, hu⟩ := hq
  obtain ⟨k, hk⟩ := Nat.exists_eq_succ_of_ne_zero hpos.ne'
  refine ⟨k + n, u, ?_, hu⟩
  rw [Nat.add_right_comm, ← Nat.succ_eq_add_one, ← hk]
  exact steps_trans (steps_of_performAll hold h) htu

section

variable {kind : JumpKind} {target : String} {d : Nat}

theorem step?_jump (hop : image.ops[s.pc]? = some ⟨.jump kind target, d⟩) :
    image.step? s = some { s with pc := if kind.taken s.flags then d else s.pc + 1 } := by
  simp only [step?, hop, State.exec]
  by_cases h : kind.taken s.flags = true <;> simp [h]

/-- A jump that is taken. -/
theorem Arrives.of_taken (hop : image.ops[s.pc]? = some ⟨.jump kind target, d⟩)
    (h : kind.taken s.flags = true) (hq : image.Arrives { s with pc := d } q) :
    image.Arrives s q :=
  .of_steps (n := 1) (by rw [steps_succ, step?_jump hop, if_pos h]; rfl) hq

/-- A jump that is not taken. -/
theorem Arrives.of_passed (hop : image.ops[s.pc]? = some ⟨.jump kind target, d⟩)
    (h : kind.taken s.flags = false) (hq : image.Arrives { s with pc := s.pc + 1 } q) :
    image.Arrives s q :=
  .of_steps (n := 1) (by rw [steps_succ, step?_jump hop, if_neg (by simp [h])]; rfl) hq

theorem advances_jump (hop : image.ops[p.pc]? = some ⟨.jump .jmp target, d⟩) :
    image.Advances p { p with pc := d } := by
  intro s hs
  rw [← hs.pc] at hop
  exact ⟨0, { s with pc := d }, by rw [steps_succ, step?_jump hop]; rfl,
    ⟨rfl, hs.bank, hs.mem, hs.out, hs.inp⟩⟩

end

end Image

end NibblePascal
