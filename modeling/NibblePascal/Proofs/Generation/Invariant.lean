import NibblePascal.Proofs.Generation.Program
import NibblePascal.Proofs.Reading.Bounds
import NibblePascal.Proofs.Storage.Loans
import NibblePascal.Proofs.Storage.Symbols

/-!
# What blocks keep

`Outline.Invariant I`: the declarations of a block and its statements keep `I`.  Then blocks keep
it, `Block.Coded.keeps`.

* `Outline.Lends`: the temporaries on loan are known, and there are none between statements;
* `Outline.Housed`: the memory is within its bounds and has the variables that are in scope;
* `Allocator.Grows`: what has been given out stays.
-/

namespace NibblePascal

/-! ### Invariants -/

/-- What is kept by the declarations of a block and by its statements. -/
structure Outline.Invariant (I : Outline → Prop) : Prop where
  statement : ∀ {o : Outline} {st : Stmt} {code : List Piece} {s' : Stock}, I o →
    Stmt.Coded o.scope o.stock st code s' → I (o.restock s')
  scalar : ∀ {o : Outline} {x : Token} {width : Width} {name : String} {v : Var}
    {memory : Allocator} {sc : Scope}, I o →
    (o.stock.memory.locate x.pos).defineVar x.text width name = (.ok v, memory) →
    o.scope.declare? (.scalar v) = some sc → I (o.declare sc memory)
  array : ∀ {o : Outline} {x : Token} {width : Width} {len : Nat} {name : String} {a : ArrayVar}
    {memory : Allocator} {sc : Scope}, I o →
    (o.stock.memory.locate x.pos).defineArray x.text width len name = (.ok a, memory) →
    len * width.cells ≤ slotSize → o.scope.declare? (.array a) = some sc → I (o.declare sc memory)
  openBody : ∀ {o : Outline} {p : Token} {selector : Var} {memory : Allocator} {sc : Scope}, I o →
    (∀ q ∈ o.headings, q.name ≠ p.text) → o.scope.declareProcedure? p.text = some sc →
    (o.stock.memory.locate p.pos).defineVar ("$procret_" ++ p.text) .nibble ""
      = (.ok selector, memory) → I (o.openBody sc memory ⟨p.text, selector, p.pos⟩)
  leave : ∀ {o : Outline}, I o → I o.leave

theorem Block.Coded.keeps {I : Outline → Prop} {o o' : Outline} {label name : String} {b : Block}
    {code : List Piece} (h : Block.Coded label name o b code o')
    (hI : Outline.Invariant I) (hb : b.arraysFit = true) (ho : I o) : I o' := by
  induction h with
  | code h => exact hI.statement ho h
  | scalar hd hs _ ih => exact ih (Bool.and_eq_true_iff.1 hb).2 (hI.scalar ho hd hs)
  | array hd hs _ ih =>
    obtain ⟨hlen, hrest⟩ := Bool.and_eq_true_iff.1 hb
    exact ih hrest (hI.array ho hd (by simpa using hlen) hs)
  | procedure hn hs hd _ _ ihb ihr =>
    obtain ⟨hbody, hrest⟩ := Bool.and_eq_true_iff.1 hb
    exact ihr hrest (hI.leave (ihb hbody (hI.openBody ho hn hs hd)))

/-! ### What has been given out -/

namespace Allocator

variable {a a' a'' : Allocator} {v : Var} {arr : ArrayVar} {w : Width} {name block : String}
  {len : Nat}

/-- The variables given out by the first allocator are among those of the second one. -/
structure Grows (a a' : Allocator) : Prop where
  vars : a.vars.toList ⊆ a'.vars.toList
  arrays : a.arrays.toList ⊆ a'.arrays.toList

theorem Grows.refl (a : Allocator) : a.Grows a := ⟨List.Subset.refl _, List.Subset.refl _⟩

theorem Grows.locate (h : a.Grows a') (pos : Pos) : a.Grows (a'.locate pos) := { h with }

theorem Grows.temporaries (h : a.Grows a') : a.temporaries ⊆ a'.temporaries := fun _ hv =>
  List.mem_filter.2 ⟨h.vars (List.mem_filter.1 hv).1, (List.mem_filter.1 hv).2⟩

theorem Grows.define {isTemp : Bool} (h : a.Grows a')
    (hd : a'.define name w block isTemp = (.ok v, a'')) : a.Grows a'' := by
  obtain ⟨-, -, rfl⟩ := of_define hd
  exact ⟨fun u hu => by simp [h.vars hu], h.arrays⟩

theorem Grows.defineArray (h : a.Grows a')
    (hd : a'.defineArray name w len block = (.ok arr, a'')) : a.Grows a'' := by
  obtain ⟨-, -, rfl⟩ := of_defineArray hd
  exact ⟨h.vars, fun r hr => by simp [h.arrays hr]⟩

theorem Grows.temp (h : a.Grows a') (ht : a'.temp w = (.ok v, a'')) : a.Grows a'' := by
  unfold Allocator.temp at ht
  split at ht
  · obtain ⟨-, rfl⟩ : _ = v ∧ _ = a'' := by simpa using ht
    exact ⟨h.vars, h.arrays⟩
  · have h' : a.Grows { a' with temps := a'.temps + 1 } := ⟨h.vars, h.arrays⟩
    exact h'.define ht

theorem Grows.release (h : a.Grows a') (v : Var) : a.Grows (a'.release v) := by
  unfold Allocator.release
  split
  exacts [⟨h.vars, h.arrays⟩, h]

theorem Grows.ledger (sc : Scope) (a : Allocator) : Ledger sc fun s _ => a.Grows s.memory where
  skip := fun _ h => h
  locate := fun pos h => h.locate pos
  perm := fun _ h => h
  take := fun ⟨_, ht, hs⟩ h => hs ▸ h.temp ht
  release := fun h => h.release _
  declared := fun _ h => h

/-- A new scalar is among those given out. -/
theorem mem_of_define {isTemp : Bool} (hd : a.define name w block isTemp = (.ok v, a')) :
    v ∈ a'.vars.toList := by
  obtain ⟨-, -, rfl⟩ := of_define hd
  simp

theorem mem_of_defineArray (hd : a.defineArray name w len block = (.ok arr, a')) :
    arr ∈ a'.arrays.toList := by
  obtain ⟨-, -, rfl⟩ := of_defineArray hd
  simp

end Allocator

namespace Outline

variable {o : Outline} {vs : List Var}

theorem grows_invariant (a : Allocator) : Invariant fun o => a.Grows o.stock.memory where
  statement := fun h hst => hst.upholds (Allocator.Grows.ledger _ a) h
  scalar := fun h hd _ => (h.locate _).define hd
  array := fun h hd _ _ => (h.locate _).defineArray hd
  openBody := fun h _ _ hd => (h.locate _).define hd
  leave := fun h => h

/-! ### Loans between statements -/

/-- The names in scope are declared scalars, and the temporaries on loan are those among `vs`. -/
structure Lends (o : Outline) (vs : List Var) : Prop where
  scope : ∀ v, .scalar v ∈ o.scope.symbols → v.temp = false
  memory : o.stock.memory.Lends vs

theorem Lends.ledger (h : o.Lends vs) : Ledger o.scope fun s vs => s.memory.Lends vs :=
  Allocator.Lends.ledger fun hx => h.scope _ (Scope.mem_of_find? hx).1

theorem lends_start : Outline.start.Lends [] := ⟨nofun, .empty⟩

/-- Between two statements nothing is on loan. -/
theorem lends_invariant : Outline.Invariant fun o => o.Lends [] where
  statement := fun h hst => ⟨h.scope, hst.books h.ledger h.memory⟩
  scalar := by
    intro o x width name v memory sc h hd hs
    obtain ⟨hm, hv⟩ := (h.memory.locate x.pos).defineVar hd
    refine ⟨fun u hu => ?_, hm⟩
    rw [Outline.declare, Scope.symbols_declare hs, List.mem_cons] at hu
    obtain heq | hu := hu
    · cases heq
      exact hv
    · exact h.scope u hu
  array := by
    intro o x width len name a memory sc h hd _ hs
    refine ⟨fun u hu => ?_, (h.memory.locate x.pos).defineArray hd⟩
    rw [Outline.declare, Scope.symbols_declare hs, List.mem_cons] at hu
    obtain heq | hu := hu
    · cases heq
    · exact h.scope u hu
  openBody := by
    intro o p selector memory sc h _ hs hd
    refine ⟨fun u hu => h.scope u ?_, ((h.memory.locate p.pos).defineVar hd).1⟩
    rwa [Outline.openBody, Scope.symbols_enter, Scope.symbols_declareProcedure hs] at hu
  leave := fun h => ⟨fun u hu => h.scope u ((Scope.symbols_leave_sublist _).subset hu), h.memory⟩

/-! ### Variables in scope -/

/-- The memory is within its bounds and has the variables in scope and the selectors. -/
structure Housed (o : Outline) : Prop where
  bounds : o.stock.memory.InBounds
  scalar : ∀ v, .scalar v ∈ o.scope.symbols → v ∈ o.stock.memory.vars.toList
  array : ∀ r, .array r ∈ o.scope.symbols → r ∈ o.stock.memory.arrays.toList
  selector : ∀ q ∈ o.headings, q.selector ∈ o.stock.memory.vars.toList

theorem housed_start : start.Housed := ⟨.empty, nofun, nofun, nofun⟩

/-- The same names over a memory that has grown. -/
theorem Housed.restock (h : o.Housed) {s : Stock} (hb : s.memory.InBounds)
    (hg : o.stock.memory.Grows s.memory) : (o.restock s).Housed :=
  ⟨hb, fun v hv => hg.vars (h.scalar v hv), fun r hr => hg.arrays (h.array r hr),
    fun q hq => hg.vars (h.selector q hq)⟩

theorem housed_invariant : Invariant Housed where
  statement := fun h hst => h.restock (hst.upholds (Allocator.InBounds.ledger _) h.bounds)
    (hst.upholds (Allocator.Grows.ledger _ _) (.refl _))
  scalar := by
    intro o x width name v memory sc h hd hs
    have hg := (Allocator.Grows.refl (o.stock.memory.locate x.pos)).define hd
    refine ⟨(h.bounds.locate x.pos).defineVar hd, fun u hu => ?_, fun r hr => ?_,
      fun q hq => hg.vars (h.selector q hq)⟩
    all_goals rw [Outline.declare, Scope.symbols_declare hs, List.mem_cons] at *
    · obtain heq | hu := hu
      · cases heq
        exact Allocator.mem_of_define hd
      · exact hg.vars (h.scalar u hu)
    · obtain heq | hr := hr
      · cases heq
      · exact hg.arrays (h.array r hr)
  array := by
    intro o x width len name a memory sc h hd hlen hs
    have hg := (Allocator.Grows.refl (o.stock.memory.locate x.pos)).defineArray hd
    have hbounds := (h.bounds.locate x.pos).defineArray x.text name hlen
    rw [hd] at hbounds
    refine ⟨hbounds, fun u hu => ?_, fun r hr => ?_, fun q hq => hg.vars (h.selector q hq)⟩
    all_goals rw [Outline.declare, Scope.symbols_declare hs, List.mem_cons] at *
    · obtain heq | hu := hu
      · cases heq
      · exact hg.vars (h.scalar u hu)
    · obtain heq | hr := hr
      · cases heq
        exact Allocator.mem_of_defineArray hd
      · exact hg.arrays (h.array r hr)
  openBody := by
    intro o p selector memory sc h _ hs hd
    have hg := (Allocator.Grows.refl (o.stock.memory.locate p.pos)).define hd
    have hsymbols : (o.openBody sc memory ⟨p.text, selector, p.pos⟩).scope.symbols
        = o.scope.symbols := by
      rw [Outline.openBody, Scope.symbols_enter, Scope.symbols_declareProcedure hs]
    refine ⟨(h.bounds.locate p.pos).defineVar hd, fun u hu => hg.vars (h.scalar u ?_),
      fun r hr => hg.arrays (h.array r ?_), fun q hq => ?_⟩
    · rwa [hsymbols] at hu
    · rwa [hsymbols] at hr
    · obtain hq | hq := List.mem_append.1 hq
      · exact hg.vars (h.selector q hq)
      · rw [List.mem_singleton.1 hq]
        exact Allocator.mem_of_define hd
  leave := fun h => ⟨h.bounds,
    fun u hu => h.scalar u ((Scope.symbols_leave_sublist _).subset hu),
    fun r hr => h.array r ((Scope.symbols_leave_sublist _).subset hr), h.selector⟩

end Outline

end NibblePascal
