import NibblePascal.Proofs.Fragments.Scalar
import NibblePascal.Proofs.Storage.Ledger

/-!
# Cells in use

The temporaries of a piece of code come out of a fixed set of cells, its *room*, and go back
there.  At every place of the code each cell of the room is either spare or belongs to one of
the temporaries in use.

* `a.Spare addr`: the allocator may still give the cell to a temporary;
* `a.Sound`: the released temporaries lie apart from one another, below the first free cell;
* `Workspace room s vs`: within the room, the variables `vs` are in use and the rest is spare;
  `take`, `release` and `declared` say how the list follows the generated code.
-/

namespace NibblePascal

namespace Var

variable {u v : Var} {addr : Nat}

theorem apart_iff : u.Apart v ↔ ∀ addr, u.Covers addr → ¬ v.Covers addr := by
  have hu := u.cells_pos
  have hv := v.cells_pos
  constructor
  · intro h addr hcu hcv
    unfold Apart at h
    unfold Covers at hcu hcv
    omega
  · -- the higher of the two addresses would belong to both
    intro h
    have hmax := h (max u.addr v.addr)
    unfold Covers at hmax
    unfold Apart
    omega

theorem Placed.lt_of_covers (h : v.Placed) (hc : v.Covers addr) : addr < scalarSpace :=
  hc.2.trans_le h

end Var

/-! ### Pools -/

namespace Pools

variable {p : Pools} {v : Var}

/-- The released temporaries of all widths. -/
def all (p : Pools) : List Var := p.nibbles ++ (p.bytes ++ p.words)

theorem mem_all : v ∈ p.all ↔ ∃ w, v ∈ p.get w := by
  simp only [all, List.mem_append]
  constructor
  · rintro (h | h | h)
    exacts [⟨.nibble, h⟩, ⟨.byte, h⟩, ⟨.word, h⟩]
  · rintro ⟨w, h⟩
    cases w
    exacts [.inl h, .inr (.inl h), .inr (.inr h)]

theorem all_set_cons (p : Pools) (w : Width) (v : Var) (vs : List Var) :
    (p.set w (v :: vs)).all.Perm (v :: (p.set w vs).all) := by
  cases w with
  | nibble => exact .refl _
  | byte => exact List.perm_middle
  | word =>
    have h : (p.nibbles ++ p.bytes ++ v :: vs).Perm (v :: (p.nibbles ++ p.bytes ++ vs)) :=
      List.perm_middle
    simpa only [all, set, List.append_assoc] using h

end Pools

/-! ### Spare cells -/

namespace Allocator

variable {a a' : Allocator} {u v : Var} {w : Width} {addr : Nat}

/-- A cell that the allocator may still give to a temporary. -/
def Spare (a : Allocator) (addr : Nat) : Prop :=
  (a.free ≤ addr ∧ addr < scalarSpace) ∨ ∃ v ∈ a.pools.all, v.Covers addr

/-- The pools hold temporaries of their widths, which lie apart and below the first free
cell. -/
structure Sound (a : Allocator) : Prop where
  free_le : a.free ≤ scalarSpace
  width : ∀ w, ∀ v ∈ a.pools.get w, v.width = w
  temp : ∀ v ∈ a.pools.all, v.temp = true
  below : ∀ v ∈ a.pools.all, v.addr + v.cells ≤ a.free
  apart : a.pools.all.Pairwise Var.Apart

/-- A variable in bank 0 none of whose cells is spare. -/
structure Held (a : Allocator) (v : Var) : Prop where
  placed : v.Placed
  not_spare : ∀ addr, v.Covers addr → ¬ a.Spare addr

/-- The variable goes with its cells to the next one who asks. -/
def Gives (a : Allocator) (v : Var) (a' : Allocator) : Prop :=
  a'.Held v ∧ ∀ addr, a.Spare addr ↔ a'.Spare addr ∨ v.Covers addr

theorem Held.apart_pooled (h : a.Held v) (hu : u ∈ a.pools.all) : v.Apart u :=
  Var.apart_iff.2 fun addr hv hc => h.not_spare addr hv (.inr ⟨u, hu, hc⟩)

theorem Held.below (h : a.Held v) : v.addr + v.cells ≤ a.free := by
  have hpos := v.cells_pos
  have hplaced : v.addr + v.cells ≤ scalarSpace := h.placed
  by_contra hlt
  exact h.not_spare (v.addr + v.cells - 1) ⟨by omega, by omega⟩ (.inl ⟨by omega, by omega⟩)

theorem sound_empty : Sound {} where
  free_le := by decide
  width := by
    intro w v hv
    cases w <;> cases hv
  temp := nofun
  below := nofun
  apart := .nil

theorem Sound.locate (h : a.Sound) (pos : Pos) : (a.locate pos).Sound := { h with }

theorem spare_release :
    (a.release v).Spare addr ↔ a.Spare addr ∨ v.temp = true ∧ v.Covers addr := by
  unfold release
  split
  · rename_i ht
    have hmem (u : Var) : u ∈ (a.pools.set v.width (v :: a.pools.get v.width)).all ↔
        u = v ∨ u ∈ a.pools.all := by
      rw [(Pools.all_set_cons ..).mem_iff, Pools.set_get, List.mem_cons]
    simp only [Spare, hmem, exists_eq_or_imp, ht, true_and]
    exact or_left_comm.trans or_comm
  · rename_i ht
    simp [ht]

theorem Sound.release (h : a.Sound) (hv : a.Held v) : (a.release v).Sound := by
  by_cases ht : v.temp = true
  · have hperm := Pools.all_set_cons a.pools v.width v (a.pools.get v.width)
    rw [Pools.set_get] at hperm
    have hpools : (a.release v).pools = a.pools.set v.width (v :: a.pools.get v.width) := by
      simp [Allocator.release, ht]
    have hfree : (a.release v).free = a.free := by simp [Allocator.release, ht]
    constructor
    · exact hfree ▸ h.free_le
    · rw [hpools]
      exact Pools.forall_set h.width (List.forall_mem_cons.2 ⟨rfl, h.width v.width⟩)
    · intro u hu
      rw [hpools, hperm.mem_iff, List.mem_cons] at hu
      obtain rfl | hu := hu
      exacts [ht, h.temp u hu]
    · intro u hu
      rw [hpools, hperm.mem_iff, List.mem_cons] at hu
      rw [hfree]
      obtain rfl | hu := hu
      exacts [hv.below, h.below u hu]
    · rw [hpools, hperm.pairwise_iff Var.Apart.symm, List.pairwise_cons]
      exact ⟨fun u => hv.apart_pooled, h.apart⟩
  · rwa [release_of_not_temp a (by simpa using ht)]

/-- A temporary is taken: out of its pool, or from the free cells. -/
theorem Sound.temp_ok (h : a.Sound) (ht : a.temp w = (.ok v, a')) :
    a'.Sound ∧ a.Gives v a' ∧ v.width = w ∧ v.temp = true := by
  unfold Allocator.temp at ht
  split at ht
  · rename_i v' rest hpool
    obtain ⟨rfl, rfl⟩ : v' = v ∧ _ = a' := by simpa using ht
    have hperm : a.pools.all.Perm (v' :: (a.pools.set w rest).all) := by
      have := Pools.all_set_cons a.pools w v' rest
      rwa [← hpool, Pools.set_get] at this
    have hmem (u : Var) : u ∈ a.pools.all ↔ u = v' ∨ u ∈ (a.pools.set w rest).all := by
      rw [hperm.mem_iff, List.mem_cons]
    have hself : v' ∈ a.pools.all := (hmem v').2 (.inl rfl)
    have hapart := (hperm.pairwise_iff Var.Apart.symm).1 h.apart
    rw [List.pairwise_cons] at hapart
    have hbelow := h.below v' hself
    have hrest : ∀ u ∈ rest, u.width = w := fun u hu => h.width w u (by rw [hpool]; exact .tail _ hu)
    refine ⟨{ h with
      width := Pools.forall_set h.width hrest
      temp := fun u hu => h.temp u ((hmem u).2 (.inr hu))
      below := fun u hu => h.below u ((hmem u).2 (.inr hu))
      apart := hapart.2 }, ⟨⟨?_, ?_⟩, ?_⟩,
      h.width w v' (by rw [hpool]; exact .head _), h.temp v' hself⟩
    · exact hbelow.trans h.free_le
    · rintro addr hc (⟨hfree, -⟩ | ⟨u, hu, hcu⟩)
      · exact absurd (hc.2.trans_le (hbelow.trans hfree)) (lt_irrefl _)
      · exact Var.apart_iff.1 (hapart.1 u hu) addr hc hcu
    · intro addr
      simp only [Spare, hmem, exists_eq_or_imp]
      exact or_left_comm.trans or_comm
  · rename_i hpool
    simp only [define] at ht
    split at ht
    · cases ht
    · rename_i hspace
      obtain ⟨rfl, rfl⟩ : _ = v ∧ _ = a' := by simpa using ht
      have hspace : a.free + w.cells ≤ scalarSpace := Nat.le_of_not_lt hspace
      refine ⟨{ h with
        free_le := hspace, below := fun u hu => (h.below u hu).trans (Nat.le_add_right ..) },
        ⟨⟨hspace, ?_⟩, ?_⟩, rfl, rfl⟩
      · rintro addr ⟨hle, hlt⟩ (⟨hfree, -⟩ | ⟨u, hu, hcu⟩)
        · exact absurd (hlt.trans_le hfree) (lt_irrefl _)
        · exact absurd (hcu.2.trans_le ((h.below u hu).trans hle)) (lt_irrefl _)
      · intro addr
        simp only [Spare, Var.Covers, Var.cells]
        constructor
        · rintro (⟨hle, hlt⟩ | hpooled)
          · by_cases hnew : addr < a.free + w.cells
            exacts [.inr ⟨hle, hnew⟩, .inl (.inl ⟨Nat.le_of_not_lt hnew, hlt⟩)]
          · exact .inl (.inr hpooled)
        · rintro ((⟨hle, hlt⟩ | hpooled) | ⟨hle, hlt⟩)
          exacts [.inl ⟨by omega, hlt⟩, .inr hpooled, .inl ⟨hle, by omega⟩]

end Allocator

/-! ### Workspaces -/

/-- A declared scalar, outside the room of the temporaries. -/
structure Var.Outside (v : Var) (room : Nat → Prop) : Prop where
  placed : v.Placed
  not_temp : v.temp = false
  not_room : ∀ addr, v.Covers addr → ¬ room addr

theorem Var.Outside.mono {v : Var} {room room' : Nat → Prop} (h : v.Outside room)
    (hsub : ∀ addr, room' addr → room addr) : v.Outside room' :=
  { h with not_room := fun addr hc hr => h.not_room addr hc (hsub addr hr) }

/-- Within the room the temporaries among `vs` are in use, and every other cell is spare. -/
structure Workspace (room : Nat → Prop) (s : Stock) (vs : List Var) : Prop where
  sound : s.memory.Sound
  room_iff : ∀ addr, room addr ↔
    s.memory.Spare addr ∨ ∃ v ∈ vs, v.temp = true ∧ v.Covers addr
  held : ∀ v ∈ vs, s.memory.Held v
  apart : vs.Pairwise fun u v => u.temp = true ∨ v.temp = true → u.Apart v

namespace Workspace

variable {room : Nat → Prop} {s s' : Stock} {vs us : List Var} {u v : Var} {w : Width}
  {addr : Nat}

theorem placed (h : Workspace room s vs) (hv : v ∈ vs) : v.Placed := (h.held v hv).placed

theorem room_of_spare (h : Workspace room s vs) (hs : s.memory.Spare addr) : room addr :=
  (h.room_iff addr).2 (.inl hs)

/-- With no variable in use the room is what is spare. -/
theorem of_sound (h : s.memory.Sound) : Workspace s.memory.Spare s [] :=
  ⟨h, fun _ => by simp, nofun, .nil⟩

theorem skip (h : Workspace room s vs) (n : Nat) : Workspace room (s.skip n) vs := { h with }

theorem locate (h : Workspace room s vs) (pos : Pos) : Workspace room (s.locate pos) vs :=
  { h with sound := h.sound.locate pos, held := fun v hv => { h.held v hv with } }

theorem perm (h : Workspace room s vs) (hp : vs.Perm us) : Workspace room s us := by
  refine { h with
    room_iff := fun addr => ?_, held := fun v hv => h.held v (hp.mem_iff.2 hv), apart := ?_ }
  · simp only [h.room_iff, hp.mem_iff]
  · exact (hp.pairwise_iff fun huv htemp => (huv htemp.symm).symm).1 h.apart

theorem swap (h : Workspace room s (u :: v :: vs)) : Workspace room s (v :: u :: vs) :=
  h.perm (.swap ..)

/-- While more variables are in use, less is spare. -/
theorem spare_mono (h : Workspace room s vs) (h' : Workspace room s' us) (hsub : vs ⊆ us)
    (hs : s'.memory.Spare addr) : s.memory.Spare addr := by
  obtain hspare | ⟨v, hv, -, hc⟩ := (h.room_iff addr).1 (h'.room_of_spare hs)
  · exact hspare
  · exact absurd hs ((h'.held v (hsub hv)).not_spare addr hc)

theorem take (h : Workspace room s vs) (ht : s.Takes w v s') :
    Workspace room s' (v :: vs) ∧ v.width = w ∧ v.temp = true ∧
      ∀ addr, v.Covers addr → s.memory.Spare addr := by
  obtain ⟨memory, htemp, rfl⟩ := ht
  obtain ⟨hsound, ⟨hheld, hspare⟩, hwidth, hv⟩ := h.sound.temp_ok htemp
  refine ⟨⟨hsound, fun addr => ?_, ?_, ?_⟩, hwidth, hv, fun addr hc => (hspare addr).2 (.inr hc)⟩
  · rw [h.room_iff, hspare]
    simp only [List.mem_cons, exists_eq_or_imp, hv, true_and, or_assoc]
  · intro u hu
    obtain rfl | hu := List.mem_cons.1 hu
    · exact hheld
    · exact ⟨h.placed hu, fun addr hc hs =>
        (h.held u hu).not_spare addr hc ((hspare addr).2 (.inl hs))⟩
  · refine List.pairwise_cons.2 ⟨fun u hu _ => Var.apart_iff.2 fun addr hcv hcu => ?_, h.apart⟩
    exact (h.held u hu).not_spare addr hcu ((hspare addr).2 (.inr hcv))

theorem release (h : Workspace room s (v :: vs)) : Workspace room (s.release v) vs := by
  obtain ⟨hv, hvs⟩ := List.pairwise_cons.1 h.apart
  refine ⟨h.sound.release (h.held v (.head _)), fun addr => ?_, fun u hu => ⟨h.placed (.tail _ hu),
    fun addr hc hs => ?_⟩, hvs⟩
  · rw [h.room_iff]
    simp only [Stock.release, Allocator.spare_release, List.mem_cons, exists_eq_or_imp, or_assoc]
  · simp only [Stock.release, Allocator.spare_release] at hs
    obtain hs | ⟨ht, hcv⟩ := hs
    · exact (h.held u (.tail _ hu)).not_spare addr hc hs
    · exact Var.apart_iff.1 (hv u hu (.inl ht)) addr hcv hc

/-- A declared scalar may be used at any time. -/
theorem declared (h : Workspace room s vs) (hv : v.Outside room) : Workspace room s (v :: vs) := by
  refine { h with
    room_iff := fun addr => ?_, held := fun u hu => ?_,
    apart := List.pairwise_cons.2 ⟨fun u hu htemp => ?_, h.apart⟩ }
  · rw [h.room_iff]
    simp [hv.not_temp]
  · obtain rfl | hu := List.mem_cons.1 hu
    · exact ⟨hv.placed, fun addr hc hs => hv.not_room addr hc (h.room_of_spare hs)⟩
    · exact h.held u hu
  · have hu' : u.temp = true := by simpa [hv.not_temp] using htemp
    exact Var.apart_iff.2 fun addr hcv hcu =>
      hv.not_room addr hcv ((h.room_iff addr).2 (.inr ⟨u, hu, hu', hcu⟩))

/-- A temporary lies apart from whatever else is in use. -/
theorem apart_head (h : Workspace room s (v :: vs)) (ht : v.temp = true) (hu : u ∈ vs) :
    v.Apart u := (List.pairwise_cons.1 h.apart).1 u hu (.inl ht)

theorem apart_outside (h : Workspace room s vs) (hv : v ∈ vs) (ht : v.temp = true)
    (hu : u.Outside room) : v.Apart u :=
  Var.apart_iff.2 fun addr hcv hcu =>
    hu.not_room addr hcu ((h.room_iff addr).2 (.inr ⟨v, hv, ht, hcv⟩))

/-- A workspace follows the generated code, whatever names outside the room are in scope. -/
theorem ledger {sc : Scope} (hsc : ∀ {x v}, sc.find? x = some (.scalar v) → v.Outside room) :
    Ledger sc (Workspace room) where
  skip := fun n h => h.skip n
  locate := fun pos h => h.locate pos
  perm := fun hp h => h.perm hp
  take := fun ht h => (h.take ht).1
  release := fun h => h.release
  declared := fun hx h => h.declared (hsc hx)

end Workspace

end NibblePascal
