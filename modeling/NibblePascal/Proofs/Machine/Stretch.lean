import NibblePascal.Proofs.Machine.Straight

/-!
# Runs within a stretch of code

A fragment of a program is run where it stands, and its run may be asked to keep to the fragment
until it is through.

* `image.Stays P n s t`: the first `n` steps from `s` execute instructions at positions in `P` only,
  and they lead to `t`;
* `image.Runs lines n s t`: these are instructions of `lines`, which begin at the place of `s`;
* `image.Completes lines s t`: the run comes to the end of the lines, in the state `t`;
* `image.Spins lines s`: the run never leaves the lines.

What keeps to `P` is what runs as well with all other instructions cut off (`steps_only_iff`).  So
what is known of the runs of all images that hold some lines is known of runs within these lines.
-/

namespace NibblePascal

/-- The positions of lines that begin at `pc`. -/
def Within (pc : Nat) (lines : List Line) (k : Nat) : Prop := pc ≤ k ∧ k < pc + codeSize lines

instance (pc : Nat) (lines : List Line) : DecidablePred (Within pc lines) :=
  fun k => inferInstanceAs (Decidable (pc ≤ k ∧ k < pc + codeSize lines))

namespace Image

variable {image : Image} {ρ : String → Nat} {P Q : Nat → Prop} {n k : Nat} {s t u : State}
  {lines : List Line}

/-! ### Steps at some positions -/

/-- The first `n` steps from `s` execute instructions at positions in `P`, and they lead to `t`. -/
structure Stays (image : Image) (P : Nat → Prop) (n : Nat) (s t : State) : Prop where
  steps : image.steps n s = some t
  inside : ∀ k < n, ∀ u, image.steps k s = some u → P u.pc

theorem stays_zero : image.Stays P 0 s t ↔ s = t := by
  constructor
  · intro h
    exact Option.some.inj h.steps
  · rintro rfl
    exact ⟨rfl, fun k hk => absurd hk (Nat.not_lt_zero k)⟩

theorem stays_succ : image.Stays P (n + 1) s t ↔
    P s.pc ∧ ∃ u, image.step? s = some u ∧ image.Stays P n u t := by
  constructor
  · rintro ⟨hsteps, hinside⟩
    obtain ⟨u, hu, hut⟩ := Option.bind_eq_some_iff.1 hsteps
    refine ⟨hinside 0 n.succ_pos s rfl, u, hu, hut, fun k hk v hv => ?_⟩
    exact hinside (k + 1) (Nat.succ_lt_succ hk) v (by rw [steps_succ, hu]; exact hv)
  · rintro ⟨hs, u, hu, hut, hinside⟩
    refine ⟨by rw [steps_succ, hu]; exact hut, fun k hk v hv => ?_⟩
    cases k with
    | zero =>
      cases hv
      exact hs
    | succ k =>
      rw [steps_succ, hu] at hv
      exact hinside k (Nat.lt_of_succ_lt_succ hk) v hv

namespace Stays

theorem mono (h : image.Stays P n s t) (hPQ : ∀ pc, P pc → Q pc) : image.Stays Q n s t :=
  ⟨h.steps, fun k hk u hu => hPQ _ (h.inside k hk u hu)⟩

/-- The place of every state but the last one. -/
theorem before (h : image.Stays P n s t) (hk : k < n) (hu : image.steps k s = some u) :
    image.Stays P k s u ∧ P u.pc :=
  ⟨⟨hu, fun j hj => h.inside j (hj.trans hk)⟩, h.inside k hk u hu⟩

/-- One more step. -/
theorem last (h : image.Stays P (n + 1) s t) :
    ∃ u, image.Stays P n s u ∧ P u.pc ∧ image.step? u = some t := by
  obtain ⟨u, hu⟩ := steps_of_le n.le_succ h.steps
  obtain ⟨hstays, hpc⟩ := h.before n.lt_succ_self hu
  have hstep := h.steps
  rw [steps_add, hu, Option.bind_some, steps_succ] at hstep
  obtain ⟨v, hv, hvt⟩ := Option.bind_eq_some_iff.1 hstep
  cases hvt
  exact ⟨u, hstays, hpc, hv⟩

/-- A further step, if the run is still inside. -/
theorem next (h : image.Stays P n s u) (hu : P u.pc) (hstep : image.step? u = some t) :
    image.Stays P (n + 1) s t := by
  refine ⟨?_, fun k hk v hv => ?_⟩
  · rw [steps_add, h.steps, Option.bind_some, steps_succ, hstep]
    rfl
  · obtain hlt | rfl := Nat.lt_succ_iff_lt_or_eq.1 hk
    · exact h.inside k hlt v hv
    · obtain rfl : u = v := Option.some.inj (h.steps.symm.trans hv)
      exact hu

/-- A run that has left does not stay any longer. -/
theorem le_of_not (h : image.Stays P n s t) (ht : ¬ P t.pc) (h' : image.Stays P k s u) : k ≤ n := by
  by_contra hlt
  exact ht (h'.inside n (Nat.lt_of_not_le hlt) t h.steps)

end Stays

/-! ### The other instructions cut off -/

/-- The image with an end put at all positions that are not in `P`. -/
def only (image : Image) (P : Nat → Prop) [DecidablePred P] : Image :=
  ⟨image.ops.mapIdx fun k op => if P k then op else ⟨.hlt, 0⟩⟩

variable [DecidablePred P]

theorem getElem?_only (image : Image) (k : Nat) :
    (image.only P).ops[k]? = (image.ops[k]?).map fun op => if P k then op else ⟨.hlt, 0⟩ :=
  Array.getElem?_mapIdx

theorem step?_only (image : Image) (s : State) :
    (image.only P).step? s = if P s.pc then image.step? s else none := by
  unfold step?
  rw [getElem?_only]
  cases image.ops[s.pc]? with
  | none => simp
  | some op => by_cases h : P s.pc <;> simp [h, State.exec]

/-- What keeps to `P` does not notice that the rest is cut off, and nothing else gets on. -/
theorem steps_only_iff : (image.only P).steps n s = some t ↔ image.Stays P n s t := by
  induction n generalizing s with
  | zero => rw [steps_zero, Option.some.injEq, stays_zero]
  | succ n ih =>
    rw [stays_succ, steps_succ, step?_only]
    by_cases h : P s.pc
    · simp [h, Option.bind_eq_some_iff, ih]
    · simp [h]

theorem Holds.only {pc : Nat} (h : image.Holds ρ pc lines) (hP : ∀ k < codeSize lines, P (pc + k)) :
    (image.only P).Holds ρ pc lines := by
  induction lines generalizing pc with
  | nil => exact holds_nil pc
  | cons l lines ih =>
    cases l with
    | inst i =>
      refine ⟨?_, ih h.2 fun k hk => ?_⟩
      · have hpc := hP 0 (Nat.succ_pos _)
        rw [getElem?_only, h.1]
        exact congrArg some (if_pos hpc)
      · rw [Nat.add_assoc, Nat.add_comm 1]
        exact hP (k + 1) (Nat.succ_lt_succ hk)
    | label name => exact ⟨h.1, ih h.2 hP⟩
    | comment | release | endProc | raw => exact ih h hP

/-! ### Runs of lines -/

/-- The first `n` steps from `s` execute instructions of the lines, which begin at the place of `s`,
and they lead to `t`. -/
def Runs (image : Image) (lines : List Line) (n : Nat) (s t : State) : Prop :=
  image.Stays (Within s.pc lines) n s t

/-- The run from `s` goes through the lines and comes to their end in the state `t`. -/
def Completes (image : Image) (lines : List Line) (s t : State) : Prop :=
  ∃ n, image.Runs lines n s t ∧ t.pc = s.pc + codeSize lines

/-- The run from `s` goes on forever and never leaves the lines. -/
def Spins (image : Image) (lines : List Line) (s : State) : Prop :=
  ∀ n, ∃ t, image.Runs lines n s t

/-- The machine stands at the head of the lines, with bank 0 selected and digits in its cells. -/
structure AtHead (image : Image) (ρ : String → Nat) (lines : List Line) (s : State) : Prop where
  holds : image.Holds ρ s.pc lines
  bank : s.bank = 0
  nibbles : s.mem.Nibbles

/-- The image with nothing but the lines left. -/
def alone (image : Image) (pc : Nat) (lines : List Line) : Image := image.only (Within pc lines)

theorem Holds.alone {pc : Nat} (h : image.Holds ρ pc lines) :
    (image.alone pc lines).Holds ρ pc lines :=
  h.only fun k hk => ⟨Nat.le_add_right pc k, Nat.add_lt_add_left hk pc⟩

theorem runs_iff : image.Runs lines n s t ↔ (image.alone s.pc lines).steps n s = some t :=
  steps_only_iff.symm

/-- The instruction at a position of the lines. -/
theorem Holds.exists_inst_of_within {lo pc : Nat} (h : image.Holds ρ lo lines)
    (hin : Within lo lines pc) :
    ∃ i, .inst i ∈ lines ∧ image.ops[pc]? = some ⟨i, destination ρ i⟩ := by
  obtain ⟨k, rfl⟩ := Nat.exists_eq_add_of_le hin.1
  obtain ⟨before, i, after, rfl, -, hop⟩ := h.exists_inst (Nat.lt_of_add_lt_add_left hin.2)
  exact ⟨i, by simp, hop⟩

theorem not_within_end (pc : Nat) (lines : List Line) : ¬ Within pc lines (pc + codeSize lines) :=
  fun h => absurd h.2 (Nat.lt_irrefl _)

theorem Completes.unique (h : image.Completes lines s t) (h' : image.Completes lines s u) :
    t = u := by
  obtain ⟨n, hn, ht⟩ := h
  obtain ⟨k, hk, hu⟩ := h'
  have hnk : n = k := le_antisymm
    (hk.le_of_not (hu ▸ not_within_end s.pc lines) hn)
    (hn.le_of_not (ht ▸ not_within_end s.pc lines) hk)
  subst hnk
  exact Option.some.inj (hn.steps.symm.trans hk.steps)

theorem Spins.not_completes (h : image.Spins lines s) : ¬ image.Completes lines s t := by
  rintro ⟨n, hn, ht⟩
  obtain ⟨u, hu⟩ := h (n + 1)
  exact absurd (hn.le_of_not (ht ▸ not_within_end s.pc lines) hu) (Nat.not_succ_le_self n)

/-- Straight lines are gone through. -/
theorem Completes.of_performAll (hold : image.Holds ρ s.pc lines)
    (h : s.performAll lines = some t) :
    image.Completes lines s { t with pc := s.pc + codeSize lines } :=
  ⟨codeSize lines, runs_iff.2 (steps_of_performAll hold.alone h), rfl⟩

/-- Lines that turn the memory, wherever they stand alone, are gone through. -/
theorem Completes.of_turns {m : Memory} (h : (image.alone s.pc lines).Turns ρ lines s.mem m)
    (hold : image.Holds ρ s.pc lines) (hb : s.bank = 0) :
    ∃ t, image.Completes lines s t ∧ t.bank = 0 ∧ t.mem = m ∧ t.out = s.out ∧ t.inp = s.inp := by
  obtain ⟨n, t, hsteps, hpc, hbank, hmem, hout, hinp⟩ :=
    h s.pc s.out s.inp hold.alone s ⟨rfl, hb, rfl, rfl, rfl⟩
  exact ⟨t, ⟨n, runs_iff.2 hsteps, hpc⟩, hbank, hmem, hout, hinp⟩

theorem Spins.of_lasts (h : ∀ k, (image.alone s.pc lines).Lasts k s.point) (hb : s.bank = 0) :
    image.Spins lines s := by
  intro n
  obtain ⟨t, ht⟩ := h n s ⟨rfl, hb, rfl, rfl, rfl⟩
  exact ⟨t, runs_iff.2 ht⟩

end Image

end NibblePascal
