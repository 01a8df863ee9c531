import Mathlib.Tactic.Common

/-!
# Computations with an outcome

Results of several computations in a row that may fail, and of those that read and change a state.
-/

namespace NibblePascal

variable {ε α β : Type}

/-- Two computations in a row succeed if both do. -/
theorem of_bind_ok {x : Except ε α} {f : α → Except ε β} {b : β} (h : x >>= f = .ok b) :
    ∃ a, x = .ok a ∧ f a = .ok b := by
  cases x with
  | error e => cases h
  | ok a => exact ⟨a, rfl, h⟩

/-- Two computations in a row fail if one does. -/
theorem of_bind_error {x : Except ε α} {f : α → Except ε β} {e : ε} (h : x >>= f = .error e) :
    x = .error e ∨ ∃ a, x = .ok a ∧ f a = .error e := by
  cases x with
  | error e' =>
    cases h
    exact .inl rfl
  | ok a => exact .inr ⟨a, rfl, h⟩

/-- Results and the arguments they come from. -/
theorem mem_of_mapM_ok {f : α → Except ε β} {xs : List α} {ys : List β}
    (h : xs.mapM f = .ok ys) :
    (∀ x ∈ xs, ∃ y ∈ ys, f x = .ok y) ∧ ∀ y ∈ ys, ∃ x ∈ xs, f x = .ok y := by
  induction xs generalizing ys with
  | nil =>
    cases h
    exact ⟨nofun, nofun⟩
  | cons x xs ih =>
    rw [List.mapM_cons] at h
    obtain ⟨y, hx, h⟩ := of_bind_ok h
    obtain ⟨zs, hxs, h⟩ := of_bind_ok h
    cases h
    obtain ⟨hl, hr⟩ := ih hxs
    constructor
    · rintro a (_ | ⟨_, ha⟩)
      · exact ⟨y, List.mem_cons_self, hx⟩
      · obtain ⟨z, hz, hfa⟩ := hl a ha
        exact ⟨z, List.mem_cons_of_mem _ hz, hfa⟩
    · rintro z (_ | ⟨_, hz⟩)
      · exact ⟨x, List.mem_cons_self, hx⟩
      · obtain ⟨a, ha, hfa⟩ := hr z hz
        exact ⟨a, List.mem_cons_of_mem _ ha, hfa⟩

theorem exists_mapM_ok {f : α → Except ε β} {xs : List α} (h : ∀ x ∈ xs, ∃ y, f x = .ok y) :
    ∃ ys, xs.mapM f = .ok ys := by
  induction xs with
  | nil => exact ⟨[], rfl⟩
  | cons x xs ih =>
    obtain ⟨y, hy⟩ := h x (.head _)
    obtain ⟨ys, hys⟩ := ih fun x' hx' => h x' (.tail _ hx')
    exact ⟨y :: ys, by rw [List.mapM_cons, hy, hys]; rfl⟩

/-! ### With a state -/

variable {σ : Type}

theorem get_run (s : σ) : (get : EStateM ε σ σ) s = .ok s s := rfl

theorem set_run (s s' : σ) : (set s' : EStateM ε σ PUnit) s = .ok ⟨⟩ s' := rfl

end NibblePascal
