import NibblePascal.Proofs.Machine.Run

/-!
# Two machines abreast

One machine runs some code, and another one the same code with instructions left out that do
nothing.  The first machine takes all steps of the second one and now and then a step of its own.

* `image.Meets image' R s s'`: both machines are at the end of their code, or both execute an
  instruction, and if they go on their states are related by `R`;
* `image.Stutters image' bound R`: from related states they meet, once the first machine has taken
  some steps of its own, which lead forward and not beyond `bound`;
* then both runs stop or none does, and the second one stops with as many steps to spare at least
  (`Stutters.run_of_halted`, `Stutters.halts_of_halted`).
-/

namespace NibblePascal

/-- Two effects of the same kind; states in which the machines go on are related by `R`. -/
inductive Effect.Alike (R : State → State → Prop) : Effect → Effect → Prop
  | next {t t' : State} (h : R t t') : Alike R (.next t) (.next t')
  | halt (t : State) (pc : Nat) : Alike R (.halt t) (.halt { t with pc := pc })
  | crash : Alike R .crash .crash

namespace Image

/-- How a run ends that goes on with an effect, with this many steps left. -/
def resume (image : Image) (limit : Nat) : Effect → Outcome
  | .next s => image.run limit s
  | .halt s => .halted s limit
  | .crash => .crashed

/-- Both machines are at the end, or both execute an instruction. -/
inductive Meets (image image' : Image) (R : State → State → Prop) (s s' : State) : Prop
  | ended (h : image.ops[s.pc]? = none) (h' : image'.ops[s'.pc]? = none)
  | both {op op' : Op} (h : image.ops[s.pc]? = some op) (h' : image'.ops[s'.pc]? = some op')
      (heff : Effect.Alike R (({ s with pc := s.pc + 1 } : State).exec op)
        (({ s' with pc := s'.pc + 1 } : State).exec op'))

/-- From related states the two machines meet, or the first one takes a step forward.  Such states
differ in nothing but the program counter. -/
structure Stutters (image image' : Image) (bound : Nat) (R : State → State → Prop) : Prop where
  same : ∀ {s s'}, R s s' → s' = { s with pc := s'.pc }
  bounded : ∀ {s s'}, R s s' → s.pc ≤ bound
  next : ∀ {s s'}, R s s' →
    image.Meets image' R s s' ∨ ∃ t, image.step? s = some t ∧ s.pc < t.pc ∧ R t s'

variable {image image' : Image} {s s' t t' : State} {limit spare : Nat} {op : Op}

theorem run_zero (h : image.ops[s.pc]? = some op) : image.run 0 s = .exhausted := by
  rw [run]
  simp only [h]

theorem run_succ (h : image.ops[s.pc]? = some op) (limit : Nat) :
    image.run (limit + 1) s =
      image.resume limit (({ s with pc := s.pc + 1 } : State).exec op) := by
  rw [run]
  simp only [h]
  cases ({ s with pc := s.pc + 1 } : State).exec op <;> rfl

/-- A run that stops had room for its steps. -/
theorem le_of_run_eq_halted {n : Nat} {u : State} (hsteps : image.steps n s = some u)
    (hrun : image.run limit s = .halted t spare) : n ≤ limit := by
  refine Nat.le_of_not_lt fun hlt => ?_
  obtain ⟨v, hv⟩ := steps_of_le hlt hsteps
  rw [run_eq_exhausted hv] at hrun
  cases hrun

namespace Stutters

variable {bound : Nat} {R : State → State → Prop} (h : image.Stutters image' bound R)

include h

/-- The steps that the first machine takes alone come to an end. -/
theorem exists_meets (hrel : R s s') :
    ∃ n t, image.steps n s = some t ∧ R t s' ∧ image.Meets image' R t s' := by
  induction hk : bound - s.pc using Nat.strongRecOn generalizing s with
  | ind k ih =>
    obtain hmeets | ⟨t, hstep, hlt, hrel'⟩ := h.next hrel
    · exact ⟨0, s, rfl, hrel, hmeets⟩
    · have hbound := h.bounded hrel'
      obtain ⟨n, u, hsteps, hu⟩ := ih (bound - t.pc) (by omega) hrel' rfl
      exact ⟨n + 1, u, by rw [steps_succ, hstep]; exact hsteps, hu⟩

/-- Where the first run stops the second one has stopped, with as many steps to spare at least. -/
theorem run_of_halted (hrel : R s s') (hrun : image.run limit s = .halted t spare) :
    ∃ pc spare', image'.run limit s' = .halted { t with pc := pc } spare' ∧ spare ≤ spare' := by
  induction limit using Nat.strongRecOn generalizing s s' with
  | ind limit ih =>
    obtain ⟨n, u, hsteps, hu, hmeets⟩ := h.exists_meets hrel
    obtain ⟨left, rfl⟩ := Nat.exists_eq_add_of_le (le_of_run_eq_halted hsteps hrun)
    rw [run_of_steps hsteps] at hrun
    -- the second run does not need the steps that the first one took alone
    suffices hleft : ∃ pc spare',
        image'.run left s' = .halted { t with pc := pc } spare' ∧ spare ≤ spare' by
      obtain ⟨pc, spare', hrun', hle⟩ := hleft
      exact ⟨pc, spare' + n, Nat.add_comm left n ▸ run_add_of_halted hrun' n,
        Nat.le_add_right_of_le hle⟩
    cases hmeets with
    | ended hend hend' =>
      rw [run_of_past_end hend] at hrun
      cases hrun
      exact ⟨s'.pc, _, by rw [run_of_past_end hend', ← h.same hu], Nat.le_refl _⟩
    | @both op op' hop hop' heff =>
      cases left with
      | zero =>
        rw [run_zero hop] at hrun
        cases hrun
      | succ left =>
        rw [run_succ hop] at hrun
        rw [run_succ hop']
        generalize ({ u with pc := u.pc + 1 } : State).exec op = e at heff hrun
        generalize ({ s' with pc := s'.pc + 1 } : State).exec op' = e' at heff
        cases heff with
        | next hrel' => exact ih left (by omega) hrel' hrun
        | halt v pc =>
          cases hrun
          exact ⟨pc, _, rfl, Nat.le_refl _⟩
        | crash => cases hrun

theorem halts_of_halted (hrel : R s s') (hrun : image'.run limit s' = .halted t' spare) :
    ∃ t, image.Halts s t := by
  induction limit generalizing s s' with
  | zero =>
    obtain ⟨n, u, hsteps, -, hmeets⟩ := h.exists_meets hrel
    cases hmeets with
    | ended hend => exact ⟨u, halts_of_steps hsteps hend⟩
    | both _ hop' =>
      rw [run_zero hop'] at hrun
      cases hrun
  | succ limit ih =>
    obtain ⟨n, u, hsteps, -, hmeets⟩ := h.exists_meets hrel
    cases hmeets with
    | ended hend => exact ⟨u, halts_of_steps hsteps hend⟩
    | @both op op' hop hop' heff =>
      rw [run_succ hop'] at hrun
      generalize he : ({ u with pc := u.pc + 1 } : State).exec op = e at heff
      generalize ({ s' with pc := s'.pc + 1 } : State).exec op' = e' at heff hrun
      -- the first run stops as it does from `u`, after one more instruction
      suffices hstop : ∃ v left spare, image.resume left e = .halted v spare by
        obtain ⟨v, left, spare, hv⟩ := hstop
        exact ⟨v, n + (left + 1), spare, by rw [run_of_steps hsteps, run_succ hop, he, hv]⟩
      cases heff with
      | next hrel' =>
        obtain ⟨v, left, spare, hv⟩ := ih hrel' hrun
        exact ⟨v, left, spare, hv⟩
      | halt v pc => exact ⟨v, 0, 0, rfl⟩
      | crash => cases hrun

end Stutters

end Image

end NibblePascal
