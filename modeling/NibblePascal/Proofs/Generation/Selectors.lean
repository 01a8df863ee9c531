import NibblePascal.Proofs.Generation.Guarded
import NibblePascal.Proofs.Machine.Confined
import NibblePascal.Proofs.Simulation.Layout

/-!
# Selectors

The selector of a procedure is a variable without a name in scope, so only calls of the procedure
write to it.

* `Outline.Selective`: no name in scope is a selector, and the selectors are different variables;
* `o.Precedes o'`: what was given out up to `o` is still there in `o'`, and the selectors that came
  in between are none of it;
* `Outline.grounds`: all variables but the selectors.  The code of statements keeps to them,
  `Outline.Precedes.spans`, and they have no cell of a selector, `Outline.not_reaches_selector`.
-/

namespace NibblePascal

/-- A new scalar was not there before. -/
theorem Allocator.InBounds.notMem_of_define {a a' : Allocator} (h : a.InBounds) {name block : String}
    {w : Width} {isTemp : Bool} {v : Var} (hd : a.define name w block isTemp = (.ok v, a')) :
    v ∉ a.vars.toList := by
  intro hv
  have hbelow := h.scalar v hv
  have hpos := v.cells_pos
  obtain ⟨-, rfl, -⟩ := of_define hd
  exact absurd hbelow (Nat.not_le_of_gt (Nat.lt_add_of_pos_right hpos))

namespace Outline

variable {o o' o'' : Outline} {q q' : Heading}

/-! ### Selectors have no names -/

/-- No name in scope is a selector, and the selectors are different variables. -/
structure Selective (o : Outline) : Prop where
  housed : o.Housed
  scope : ∀ v, .scalar v ∈ o.scope.symbols → ∀ q ∈ o.headings, q.selector ≠ v
  lasting : ∀ q ∈ o.headings, q.selector.temp = false
  distinct : o.headings.Pairwise fun q q' => q.selector ≠ q'.selector

theorem selective_start : start.Selective := ⟨housed_start, nofun, nofun, .nil⟩

theorem selective_invariant : Invariant Selective where
  statement := fun h hst =>
    ⟨housed_invariant.statement h.housed hst, h.scope, h.lasting, h.distinct⟩
  scalar := by
    intro o x width name v memory sc h hd hs
    have hnew := (h.housed.bounds.locate x.pos).notMem_of_define hd
    refine ⟨housed_invariant.scalar h.housed hd hs, fun u hu q hq => ?_, h.lasting, h.distinct⟩
    rw [Outline.declare, Scope.symbols_declare hs, List.mem_cons] at hu
    obtain heq | hu := hu
    · cases heq
      rintro rfl
      exact hnew (h.housed.selector q hq)
    · exact h.scope u hu q hq
  array := by
    intro o x width len name a memory sc h hd hlen hs
    refine ⟨housed_invariant.array h.housed hd hlen hs, fun u hu q hq => ?_, h.lasting, h.distinct⟩
    rw [Outline.declare, Scope.symbols_declare hs, List.mem_cons] at hu
    obtain heq | hu := hu
    · cases heq
    · exact h.scope u hu q hq
  openBody := by
    intro o p selector memory sc h hn hs hd
    have hnew := (h.housed.bounds.locate p.pos).notMem_of_define hd
    have htemp : selector.temp = false := by
      obtain ⟨-, rfl, -⟩ := Allocator.of_define hd
      rfl
    refine ⟨housed_invariant.openBody h.housed hn hs hd, fun u hu q hq => ?_, fun q hq => ?_, ?_⟩
    · rw [Outline.openBody, Scope.symbols_enter, Scope.symbols_declareProcedure hs] at hu
      obtain hq | hq := List.mem_append.1 hq
      · exact h.scope u hu q hq
      · rw [List.mem_singleton.1 hq]
        rintro rfl
        exact hnew (h.housed.scalar _ hu)
    · obtain hq | hq := List.mem_append.1 hq
      · exact h.lasting q hq
      · rw [List.mem_singleton.1 hq]
        exact htemp
    · refine List.pairwise_append.2 ⟨h.distinct, List.pairwise_singleton .., fun q hq q' hq' => ?_⟩
      rw [List.mem_singleton.1 hq']
      rintro rfl
      exact hnew (h.housed.selector q hq)
  leave := fun h => ⟨housed_invariant.leave h.housed,
    fun u hu => h.scope u ((Scope.symbols_leave_sublist _).subset hu), h.lasting, h.distinct⟩

/-! ### Selectors that come later -/

/-- What was given out up to `o` is still there in `o'`, and the selectors that came in between are
none of it. -/
structure Precedes (o o' : Outline) : Prop where
  grows : o.stock.memory.Grows o'.stock.memory
  fresh : ∀ q ∈ o'.headings, q ∈ o.headings ∨ q.selector ∉ o.stock.memory.vars.toList

theorem Precedes.refl (o : Outline) : o.Precedes o := ⟨.refl _, fun _ hq => .inl hq⟩

theorem Precedes.trans (h : o.Precedes o') (h' : o'.Precedes o'') : o.Precedes o'' := by
  refine ⟨⟨fun v hv => h'.grows.vars (h.grows.vars hv),
    fun r hr => h'.grows.arrays (h.grows.arrays hr)⟩, fun q hq => ?_⟩
  obtain hq | hq := h'.fresh q hq
  · exact h.fresh q hq
  · exact .inr fun hmem => hq (h.grows.vars hmem)

theorem precedes_invariant (o : Outline) : Invariant fun o' => o'.Housed ∧ o.Precedes o' where
  statement := fun h hst => ⟨housed_invariant.statement h.1 hst,
    (grows_invariant _).statement h.2.grows hst, h.2.fresh⟩
  scalar := fun h hd hs => ⟨housed_invariant.scalar h.1 hd hs,
    (grows_invariant _).scalar h.2.grows hd hs, h.2.fresh⟩
  array := fun h hd hlen hs => ⟨housed_invariant.array h.1 hd hlen hs,
    (grows_invariant _).array h.2.grows hd hlen hs, h.2.fresh⟩
  openBody := by
    intro o' p selector memory sc h hn hs hd
    refine ⟨housed_invariant.openBody h.1 hn hs hd, (grows_invariant _).openBody h.2.grows hn hs hd,
      fun q hq => ?_⟩
    obtain hq | hq := List.mem_append.1 hq
    · exact h.2.fresh q hq
    · rw [List.mem_singleton.1 hq]
      exact .inr fun hmem =>
        (h.1.bounds.locate p.pos).notMem_of_define hd (h.2.grows.vars hmem)
  leave := fun h => ⟨housed_invariant.leave h.1, h.2.grows, h.2.fresh⟩

/-! ### All variables but the selectors -/

/-- The variables that are no selectors. -/
def grounds (o : Outline) : Territory where
  scalar := fun v => v ∈ o.stock.memory.vars.toList ∧ ∀ q ∈ o.headings, q.selector ≠ v
  array := fun r => r ∈ o.stock.memory.arrays.toList

/-- The names in scope and the temporaries are no selectors, then or later. -/
theorem Precedes.spans {vs : List Var} (h : o.Precedes o') (ho : o.Selective) (ho' : o'.Selective) :
    o'.grounds.Spans o.scope o.stock.memory vs where
  temporary := by
    rintro v hv -
    obtain ⟨hmem, htemp⟩ := List.mem_filter.1 hv
    refine ⟨h.grows.vars hmem, fun q hq => ?_⟩
    rintro rfl
    rw [ho'.lasting q hq] at htemp
    cases htemp
  scalar := by
    intro x v hx
    have hv := (Scope.mem_of_find? hx).1
    refine ⟨h.grows.vars (ho.housed.scalar v hv), fun q hq => ?_⟩
    obtain hq | hq := h.fresh q hq
    · exact ho.scope v hv q hq
    · rintro rfl
      exact hq (ho.housed.scalar _ hv)
  array := by
    intro x r hx
    have hr := ho.housed.array r (Scope.mem_of_find? hx).1
    exact ⟨h.grows.arrays hr, (ho.housed.bounds.array r hr).1⟩

theorem placed_grounds (h : o.Housed) : o.grounds.Placed :=
  ⟨fun v hv => (h.bounds.scalar v hv.1).trans h.bounds.free_le, fun r hr => (h.bounds.array r hr).1⟩

theorem Tidy.mem_declared_selector (h : o.Tidy) (hs : o.Selective) (hq : q ∈ o.headings) :
    q.selector ∈ o.stock.memory.declared :=
  List.mem_filter.2 ⟨h.housed.selector q hq, by simp [hs.lasting q hq]⟩

/-- No variable but a selector reaches the cell of a selector. -/
theorem not_reaches_selector (h : o.Tidy) (hs : o.Selective) (hq : q ∈ o.headings) :
    ¬ o.grounds.Reaches q.selector.addr := by
  have hself : q.selector.Covers q.selector.addr :=
    ⟨le_rfl, Nat.lt_add_of_pos_right q.selector.cells_pos⟩
  rintro (⟨v, ⟨hv, hne⟩, hc⟩ | ⟨r, hr, hle, -⟩)
  · exact Var.apart_iff.1 (h.apart hv (h.housed.selector q hq) (hne q hq).symm) _ hc hself
  · have hbank := (h.housed.bounds.array r hr).1.bank_pos
    have hlow := (h.laid.outside _ (h.mem_declared_selector hs hq)).placed
    have hpos := q.selector.cells_pos
    unfold Var.Placed scalarSpace at hlow
    unfold ArrayVar.base at hle
    omega

theorem selector_addr_ne (h : o.Tidy) (hs : o.Selective) (hq : q ∈ o.headings)
    (hq' : q' ∈ o.headings) (hne : q ≠ q') : q.selector.addr ≠ q'.selector.addr := by
  have hvar : q.selector ≠ q'.selector := by
    have : Std.Symm fun q q' : Heading => q.selector ≠ q'.selector := ⟨fun _ _ => .symm⟩
    exact hs.distinct.forall hq hq' hne
  intro heq
  have hapart := h.apart (h.housed.selector q hq) (h.housed.selector q' hq') hvar
  refine Var.apart_iff.1 hapart q.selector.addr ⟨le_rfl, Nat.lt_add_of_pos_right (Var.cells_pos _)⟩ ?_
  exact ⟨heq.ge, heq.trans_lt (Nat.lt_add_of_pos_right (Var.cells_pos _))⟩

end Outline

end NibblePascal
