import NibblePascal.Proofs.Compilation.Confined
import NibblePascal.Proofs.Generation.Opened
import NibblePascal.Proofs.Generation.Stored
import NibblePascal.Proofs.Machine.Written

/-!
# What the code of a tree leaves alone

While the code of an expression or of a condition runs, no cell changes but those of temporaries
that were pooled or not yet made where the tree began: `Expr.Coded.sameBut` and
`Cond.Coded.sameBut`.  None of these cells belongs to a declared scalar or to an array
(`Outline.Spends.sameDeclared`).
-/

namespace NibblePascal

/-! ### Cells of new temporaries -/

namespace Allocator

variable {a a' : Allocator} {v : Var} {vs : List Var} {addr : Nat} {w : Width}

/-- The scalars made between the two lie behind those made before. -/
structure Extends (a a' : Allocator) : Prop where
  free_le : a.free ≤ a'.free
  above : ∀ v ∈ a'.vars.toList, v ∈ a.vars.toList ∨ a.free ≤ v.addr

theorem Extends.refl (a : Allocator) : a.Extends a := ⟨Nat.le_refl _, fun _ hv => .inl hv⟩

theorem Extends.temp (h : a.Extends a') {a'' : Allocator} (ht : a'.temp w = (.ok v, a'')) :
    a.Extends a'' := by
  unfold Allocator.temp at ht
  split at ht
  · obtain ⟨-, rfl⟩ : _ = v ∧ _ = a'' := by simpa using ht
    exact ⟨h.free_le, h.above⟩
  · obtain ⟨-, rfl, rfl⟩ := of_define ht
    refine ⟨h.free_le.trans (Nat.le_add_right ..), fun u hu => ?_⟩
    rw [Array.toList_push, List.mem_append, List.mem_singleton] at hu
    obtain hu | rfl := hu
    exacts [h.above u hu, .inr h.free_le]

theorem Extends.release (h : a.Extends a') (v : Var) : a.Extends (a'.release v) := by
  unfold Allocator.release
  split
  exacts [⟨h.free_le, h.above⟩, h]

theorem Extends.ledger (sc : Scope) (a : Allocator) : Ledger sc fun s _ => a.Extends s.memory where
  skip := fun _ h => h
  locate := fun _ h => ⟨h.free_le, h.above⟩
  perm := fun _ h => h
  take := by
    rintro _ _ _ _ _ ⟨_, ht, rfl⟩ h
    exact h.temp ht
  release := fun h => h.release _
  declared := fun _ h => h

/-- What is borrowed was spare. -/
theorem Borrowed.spare (h : a.Borrowed a' addr) (hext : a.Extends a') (hb : a'.InBounds) :
    a.Spare addr := by
  obtain ⟨v, hv, hpool | hnew, hc⟩ := h
  · exact .inr ⟨v, hpool, hc⟩
  · obtain ⟨hmem, htemp⟩ := List.mem_filter.1 hv
    obtain hold | hle := hext.above v hmem
    · exact absurd (List.mem_filter.2 ⟨hold, htemp⟩) hnew
    · exact .inl ⟨hle.trans hc.1, hc.2.trans_le ((hb.scalar v hmem).trans hb.free_le)⟩

/-- The declared scalars and the arrays hold the same in both memories. -/
structure SameDeclared (a : Allocator) (m m' : Memory) : Prop where
  scalar : ∀ v ∈ a.declared, m'.get v = m.get v
  array : ∀ r ∈ a.arrays.toList, ∀ k < slotSize, m'.read (r.base + k) = m.read (r.base + k)

end Allocator

/-! ### Trees in their place -/

namespace Outline.Spends

variable {o : Outline} {s s' : Stock} {vs us : List Var} {m m' : Memory}

theorem ready (hs : o.Spends s vs) (ho : o.Tidy) : o.scope.Ready s.memory.Spare :=
  ho.ready.mono fun _ => hs.workspace.room_of_spare

/-- All variables that there are by then can be used. -/
theorem spans (hs : o.Spends s vs) (ho : o.Tidy) : s.memory.territory.Spans o.scope s.memory us :=
  (ho.housed.restock hs.bounds hs.grows).spans ⟨fun _ h => h, fun _ h => h⟩

/-- A change of spare cells is none of the declared variables. -/
theorem sameDeclared (hs : o.Spends s vs) (ho : o.Tidy) (hsame : m.SameBut s.memory.Spare m') :
    s.memory.SameDeclared m m' := by
  constructor
  · intro v hv
    have hout := ho.laid.outside v (hs.keeps.declared ▸ hv)
    exact hsame.get_eq fun addr hc hspare =>
      hout.not_room addr hc (hs.workspace.room_of_spare hspare)
  · intro r hr k _
    have hbase : scalarSpace ≤ r.base := ArrayVar.base_ge (hs.bounds.array r hr).1
    exact hsame _ fun hspare => absurd ((hs.ready ho).room_lt _ hspare) (by omega)

end Outline.Spends

section Trees

variable {o : Outline} {s s' : Stock} {vs : List Var} {image : Image} {ρ : String → Nat}
  {t u : State} {n : Nat}

/-- The code of an expression changes no cell that was in use. -/
theorem Expr.Coded.sameBut {e : Expr} {lines : List Line} {v : Var}
    (h : Expr.Coded o.scope s e lines v s') (ho : o.Tidy) (hs : o.Spends s vs)
    (hold : image.Holds ρ t.pc lines) (hb : t.bank = 0) (hruns : image.Runs lines n t u) :
    t.mem.SameBut (s.memory.Borrowed s'.memory) u.mem := by
  have hs' := h.books ho.spends_ledger hs
  have hkeeps := (h.guarded ho.lends.ledger hs.lends (hs'.spans ho)).1
  have hwrites := h.writesIn ho.lends.ledger hs.lends (hs.lends.lendable_borrowed s'.memory)
  have hclosed := (h.labelled fun _ => False).2.isClosed
  have hsealed : s'.memory.territory.Sealed image ρ t.pc lines :=
    ⟨hs'.bounds.placed, hkeeps, hold, fun x hx => .inl (hclosed.jumps x hx)⟩
  exact hsealed.sameBut hwrites (Territory.stands_start rfl hb) hruns

variable {c : Cond} {test : List TestLine} {yes no : String}

/-- The labels of a closed test and the targets of its jumps. -/
theorem Cond.Coded.closed_jumps {sc : Scope} (h : Cond.Coded sc none s c test s') {x : String}
    (hx : x ∈ jumpTargets (Code.closeTest yes no test)) :
    x ∈ labelNames (Code.closeTest yes no test) ∨ x = yes ∨ x = no :=
  (Code.labelled_closeTest ((h.labelled fun x => x = yes ∨ x = no).2) (.inl rfl) (.inr rfl)).closed
    x hx

/-- The test of a condition changes no cell that was in use. -/
theorem Cond.Coded.sameBut (h : Cond.Coded o.scope none s c test s') (ho : o.Tidy)
    (hs : o.Spends s vs) (hold : image.Holds ρ t.pc (Code.closeTest yes no test))
    (hout : ∀ x, x = yes ∨ x = no → ¬ Within t.pc (Code.closeTest yes no test) (ρ x))
    (hb : t.bank = 0) (hruns : image.Runs (Code.closeTest yes no test) n t u) :
    t.mem.SameBut (s.memory.Borrowed s'.memory) u.mem := by
  have hs' := h.books ho.spends_ledger hs
  have hkeeps := h.guarded ho.lends.ledger hs.lends (hs'.spans ho) (by simp) yes no
  have hwrites :=
    h.writesIn ho.lends.ledger hs.lends (hs.lends.lendable_borrowed s'.memory) (by simp)
      yes no
  have hsealed : s'.memory.territory.Sealed image ρ t.pc (Code.closeTest yes no test) :=
    ⟨hs'.bounds.placed, hkeeps, hold, fun x hx => (h.closed_jumps hx).imp_right (hout x)⟩
  exact hsealed.sameBut hwrites (Territory.stands_start rfl hb) hruns

end Trees

end NibblePascal
