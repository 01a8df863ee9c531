import NibblePascal.Proofs.Storage.History
import NibblePascal.Proofs.Storage.Workspace

/-!
# Scalars are packed

Whatever an allocator was asked for, its scalars lie one behind the other from the first cell on,
in the order in which they were first given out, and its arrays take one slot after the other.

* `Packed start vs`: the scalars `vs` lie one behind the other from `start` on;
* `Allocator.Arranged vs rs a`: the allocator has given out the scalars `vs` and the arrays `rs`.
  Every exchange keeps the layout, `Arranged.step`, so it holds after every history;
* `Request.Answered h q r`: after the history `h`, `q` may be answered with `r`;
* `requests_met_exactly`: the layout, the answers so far, and which requests can still be met.
-/

namespace NibblePascal

/-! ### One behind the other -/

/-- The number of cells of some scalars together. -/
def totalCells (vs : List Var) : Nat := (vs.map Var.cells).sum

@[simp] theorem totalCells_nil : totalCells [] = 0 := rfl

@[simp] theorem totalCells_cons (v : Var) (vs : List Var) :
    totalCells (v :: vs) = v.cells + totalCells vs := by simp [totalCells]

@[simp] theorem totalCells_append (vs us : List Var) :
    totalCells (vs ++ us) = totalCells vs + totalCells us := by simp [totalCells]

/-- The scalars lie one behind the other from `start` on. -/
def Packed (start : Nat) : List Var → Prop
  | [] => True
  | v :: vs => v.addr = start ∧ Packed (start + v.cells) vs

namespace Packed

variable {start addr : Nat} {vs : List Var} {v : Var}

theorem append_singleton :
    Packed start (vs ++ [v]) ↔ Packed start vs ∧ v.addr = start + totalCells vs := by
  induction vs generalizing start with
  | nil => simp [Packed]
  | cons u vs ih => simp [Packed, ih, and_assoc, Nat.add_assoc]

/-- A scalar starts behind those before it. -/
theorem addr_eq (h : Packed start vs) {k : Nat} (hk : vs[k]? = some v) :
    v.addr = start + totalCells (vs.take k) := by
  induction vs generalizing start k with
  | nil => simp at hk
  | cons u vs ih =>
    cases k with
    | zero =>
      obtain rfl : u = v := by simpa using hk
      simpa using h.1
    | succ k =>
      have := ih h.2 (by simpa using hk)
      simp only [List.take_succ_cons, totalCells_cons]
      omega

/-- The scalars take the cells from `start` on without a gap. -/
theorem exists_covers_iff (h : Packed start vs) :
    (∃ v ∈ vs, v.Covers addr) ↔ start ≤ addr ∧ addr < start + totalCells vs := by
  induction vs generalizing start with
  | nil => simp
  | cons u vs ih =>
    rw [List.exists_mem_cons_iff, ih h.2, totalCells_cons, Var.Covers, h.1]
    omega

theorem apart (h : Packed start vs) : vs.Pairwise Var.Apart := by
  induction vs generalizing start with
  | nil => exact .nil
  | cons u vs ih =>
    refine List.pairwise_cons.2 ⟨fun v hv => Var.apart_iff.2 fun addr hu hc => ?_, ih h.2⟩
    have hbehind := (exists_covers_iff h.2).1 ⟨v, hv, hc⟩
    have hbefore := hu.2
    rw [h.1] at hbefore
    omega

end Packed

/-! ### The layout -/

namespace Allocator

variable {h : History} {a a' : Allocator} {q : Request} {r : Reply} {vs : List Var}
  {rs : List ArrayVar}

/-- The allocator has given out the scalars `vs` and the arrays `rs`, in this order. -/
structure Arranged (vs : List Var) (rs : List ArrayVar) (a : Allocator) : Prop where
  vars : a.vars.toList = vs
  packed : Packed 0 vs
  free : a.free = totalCells vs
  free_le : a.free ≤ scalarSpace
  pool : ∀ w, ∀ v ∈ a.pools.get w, v ∈ vs
  arrays : a.arrays.toList = rs
  /-- The slots of the arrays are taken in order. -/
  slot : ∀ n r, rs[n]? = some r →
    r.bank = 1 + n / slotsPerBank ∧ r.addr = slotSize * (n % slotsPerBank)
  /-- The next slot. -/
  bank_eq : a.bank = 1 + rs.length / slotsPerBank
  slot_eq : a.slot = rs.length % slotsPerBank
  length_le : rs.length ≤ lastBank * slotsPerBank

/-- Only temporaries that were given out are put back. -/
def ReleasesGiven (h : History) (q : Request) : Prop :=
  ∀ v, q = .release v → v.temp = true → v ∈ h.scalars

namespace Arranged

theorem new : Arranged [] [] {} where
  vars := rfl
  packed := trivial
  free := rfl
  free_le := Nat.zero_le _
  pool := by
    intro w v hv
    cases w <;> cases hv
  arrays := rfl
  slot := nofun
  bank_eq := rfl
  slot_eq := rfl
  length_le := Nat.zero_le _

/-- A scalar at the first free cell is new. -/
theorem notMem_of_addr (hl : Arranged vs rs a) {v : Var} (hv : v.addr = a.free) : v ∉ vs := by
  intro hmem
  have hself : v.Covers v.addr := ⟨le_rfl, Nat.lt_add_of_pos_right v.cells_pos⟩
  have := (hl.packed.exists_covers_iff.1 ⟨v, hmem, hself⟩).2
  rw [hv, hl.free] at this
  omega

/-- A scalar gets the cells behind all others. -/
theorem push (hl : Arranged vs rs a) {v : Var} (hv : v.addr = a.free)
    (hroom : a.free + v.cells ≤ scalarSpace) : Arranged (vs ++ [v]) rs (a.push v) where
  vars := by simp [Allocator.push, hl.vars]
  packed := Packed.append_singleton.2 ⟨hl.packed, by rw [hv, hl.free, Nat.zero_add]⟩
  free := by simp [Allocator.push, hl.free]
  free_le := hroom
  pool := fun w u hu => List.mem_append_left _ (hl.pool w u hu)
  arrays := hl.arrays
  slot := hl.slot
  bank_eq := hl.bank_eq
  slot_eq := hl.slot_eq
  length_le := hl.length_le

/-- The pools may change as long as they hold scalars that were given out. -/
theorem repool (hl : Arranged vs rs a) {w : Width} {us : List Var}
    (hus : ∀ v ∈ us, v ∈ vs) :
    Arranged vs rs { a with pools := a.pools.set w us } :=
  { hl with pool := Pools.forall_set (P := fun _ v => v ∈ vs) hl.pool hus }

/-- An array gets the slot behind all others. -/
theorem pushArray (hl : Arranged vs rs a) (hroom : a.bank ≤ lastBank) (name : String) (w : Width)
    (len : Nat) (block : String) :
    Arranged vs (rs ++ [⟨name, w, a.slot * slotSize, len, a.bank, block⟩])
      { a with
        slot := if a.slot + 1 = slotsPerBank then 0 else a.slot + 1
        bank := if a.slot + 1 = slotsPerBank then a.bank + 1 else a.bank
        arrays := a.arrays.push ⟨name, w, a.slot * slotSize, len, a.bank, block⟩ } := by
  have hbank := hl.bank_eq
  have hslot := hl.slot_eq
  have hlength : (rs ++ [(⟨name, w, a.slot * slotSize, len, a.bank, block⟩ : ArrayVar)]).length
      = rs.length + 1 := by simp
  refine { hl with
    arrays := by simp [hl.arrays], slot := fun n r hr => ?_, bank_eq := ?_, slot_eq := ?_,
    length_le := ?_ }
  · simp only [List.getElem?_append, List.getElem?_singleton] at hr
    split at hr
    · exact hl.slot n r hr
    · split at hr
      · obtain rfl := Option.some.inj hr
        obtain rfl : n = rs.length := by omega
        exact ⟨hbank, by rw [hslot, Nat.mul_comm]⟩
      · cases hr
  all_goals rw [hlength]
  -- A bank is full when the number of arrays is a multiple of sixteen.
  · dsimp only
    split <;> simp only [slotsPerBank] at * <;> omega
  · dsimp only
    split <;> simp only [slotsPerBank] at * <;> omega
  · simp only [lastBank, slotsPerBank] at *
    omega

/-- Every exchange keeps the layout. -/
theorem step (hl : Arranged h.scalars h.arrays a) (hfair : ReleasesGiven h q)
    (he : Exchange a q r a') :
    Arranged (History.scalars ((q, r) :: h)) (History.arrays ((q, r) :: h)) a' := by
  cases he with
  | scalar room =>
    rw [History.scalars, if_neg (hl.notMem_of_addr rfl)]
    exact hl.push rfl room
  | noScalar | noArray | kept => exact hl
  | array room => exact hl.pushArray room ..
  | @reused w v rest pool =>
    rw [History.scalars, if_pos (hl.pool w v (by simp [pool]))]
    exact hl.repool fun u hu => hl.pool w u (by simp [pool, hu])
  | @made w pool room =>
    rw [History.scalars, if_neg (hl.notMem_of_addr rfl)]
    have hl' := hl.push (v := ⟨tempName a.temps, w, a.free, "", true⟩) rfl room
    exact { hl' with }
  | noTemporary | located => exact { hl with }
  | pooled temp =>
    refine hl.repool fun u hu => ?_
    obtain rfl | hu := List.mem_cons.1 hu
    · exact hfair _ rfl temp
    · exact hl.pool _ u hu

theorem after (hafter : After ReleasesGiven h a) : Arranged h.scalars h.arrays a :=
  hafter.induct (fun h a => Arranged h.scalars h.arrays a) new step

end Arranged

end Allocator

/-! ### The answers -/

/-- What a request may be answered with after a history.  A declared scalar is new and gets the next
cells, at the width that was asked for, and so does a temporary unless one of its width waits. -/
def Request.Answered (h : History) : Request → Reply → Prop
  | .scalar name w block, .scalar v =>
      v = ⟨name, w, totalCells h.scalars, block, false⟩ ∧ v ∉ h.scalars
  | .temporary w, .scalar v =>
      v.width = w ∧
        if h.waiting w = [] then v.temp = true ∧ v.addr = totalCells h.scalars ∧ v ∉ h.scalars
        else (h.waiting w).head? = some v
  | .array name w len block, .array r =>
      r = ⟨name, w, 256 * (h.arrays.length % 16), len, 1 + h.arrays.length / 16, block⟩
  | .release v, .released accepted => accepted = v.temp
  | .locate _, .located => True
  | .scalar .., .refused _ | .temporary _, .refused _ | .array .., .refused _ => True
  | _, _ => False

theorem History.width_of_mem_waiting {w : Width} {v : Var} {h : History} (hv : v ∈ h.waiting w) :
    v.width = w := by
  fun_induction waiting w h with
  | case1 => cases hv
  | case2 u h hu ih =>
    obtain rfl | hv := List.mem_cons.1 hv
    exacts [hu, ih hv]
  | case4 _ _ ih => exact ih (List.mem_of_mem_tail hv)
  | case3 _ _ _ ih | case5 _ _ _ _ ih | case6 _ _ _ _ ih => exact ih hv

namespace Allocator

variable {h : History} {a a' : Allocator} {q : Request} {r : Reply} {vs : List Var}
  {rs : List ArrayVar}

theorem Arranged.answered (hl : Arranged h.scalars h.arrays a)
    (hpools : ∀ w, a.pools.get w = h.waiting w) (he : Exchange a q r a') : q.Answered h r := by
  cases he with
  | scalar => exact ⟨by rw [hl.free], hl.notMem_of_addr rfl⟩
  | array =>
    rw [Request.Answered, hl.bank_eq, hl.slot_eq, Nat.mul_comm]
    rfl
  | @reused w v rest pool =>
    have hwaiting : h.waiting w = v :: rest := (hpools w).symm.trans pool
    refine ⟨History.width_of_mem_waiting (h := h) (by simp [hwaiting]), ?_⟩
    simp [hwaiting]
  | @made w pool =>
    refine ⟨rfl, ?_⟩
    rw [if_pos ((hpools w).symm.trans pool)]
    exact ⟨rfl, hl.free, hl.notMem_of_addr rfl⟩
  | pooled temp | kept temp => exact temp.symm
  | noScalar | noArray | noTemporary | located => trivial

/-- Every request of a history was answered as it may be. -/
theorem After.answered (hafter : After ReleasesGiven h a) {later earlier : History}
    (hh : h = later ++ (q, r) :: earlier) : q.Answered earlier r := by
  induction hafter generalizing later with
  | new => simp at hh
  | @served h a q' before fair ih =>
    cases later with
    | nil =>
      obtain ⟨⟨rfl, rfl⟩, rfl⟩ : (q' = q ∧ (a.serve q').1 = r) ∧ h = earlier := by simpa using hh
      exact (Arranged.after before).answered before.pools_eq (a.exchange_serve q')
    | cons e later => exact ih (List.cons.inj hh).2

/-! ### What can still be given out -/

/-- A scalar is given out as long as there is room for it. -/
theorem defineVar_isOk_iff (name block : String) (w : Width) :
    (∃ v a', a.defineVar name w block = (.ok v, a')) ↔ a.free + w.cells ≤ scalarSpace := by
  unfold defineVar define
  split <;> simp <;> omega

/-- A temporary is given out if one of its width is in the pools or there is room for it. -/
theorem temp_isOk_iff (w : Width) :
    (∃ v a', a.temp w = (.ok v, a')) ↔ a.pools.get w ≠ [] ∨ a.free + w.cells ≤ scalarSpace := by
  unfold temp
  split
  · rename_i hpool
    simp [hpool]
  · rename_i hpool
    unfold define
    dsimp only
    split <;> simp [hpool] <;> omega

/-- An array is given out until all slots are taken. -/
theorem Arranged.defineArray_isError_iff (hl : Arranged vs rs a) (name block : String) (w : Width)
    (len : Nat) :
    (∃ why a', a.defineArray name w len block = (.error why, a'))
      ↔ rs.length = lastBank * slotsPerBank := by
  have hbank := hl.bank_eq
  have hle := hl.length_le
  have hfull : lastBank < a.bank ↔ rs.length = lastBank * slotsPerBank := by
    simp only [lastBank, slotsPerBank] at *
    omega
  unfold defineArray
  split <;> simp_all

/-- The layout after a history, and which requests can still be met. -/
structure MeetsExactly (h : History) (a : Allocator) : Prop where
  /-- Every request so far was answered as it may be after those before it. -/
  answered : ∀ later q r earlier, h = later ++ (q, r) :: earlier → q.Answered earlier r
  /-- The allocator knows what it has given out, in the order of the history. -/
  given : a.vars.toList = h.scalars ∧ a.arrays.toList = h.arrays ∧ ∀ w, a.pools.get w = h.waiting w
  /-- A scalar starts behind all those before it. -/
  addr : ∀ k v, h.scalars[k]? = some v → v.addr = ((h.scalars.take k).map Var.cells).sum
  apart : h.scalars.Pairwise Var.Apart
  covered : ∀ addr, (∃ v ∈ h.scalars, v.Covers addr) ↔ addr < a.free
  free_le : a.free ≤ 4096
  scalar : ∀ name w block,
    (∃ v a', a.defineVar name w block = (.ok v, a')) ↔ a.free + w.cells ≤ 4096
  temporary : ∀ w,
    (∃ v a', a.temp w = (.ok v, a')) ↔ (∃ v, v ∈ h.waiting w) ∨ a.free + w.cells ≤ 4096
  slot : ∀ n r, h.arrays[n]? = some r → r.bank = 1 + n / 16 ∧ r.addr = 256 * (n % 16)
  array : ∀ name w len block,
    (∃ why a', a.defineArray name w len block = (.error why, a')) ↔ h.arrays.length = 240
  /-- A request that is refused changes nothing that was given out. -/
  refused : ∀ q why a', a.serve q = (.refused why, a') →
    a'.vars = a.vars ∧ a'.arrays = a.arrays ∧ a'.free = a.free ∧ a'.pools = a.pools

/-- However an allocator was used, as long as only temporaries that it gave out were put back, its
scalars are packed in order, each at the width that was asked for, its arrays take the slots in
order, and a request is refused only where there is nothing left for it. -/
theorem requests_met_exactly (hafter : After ReleasesGiven h a) : MeetsExactly h a := by
  have hl := Arranged.after hafter
  have hpools := hafter.pools_eq
  exact {
    answered _ _ _ _ hh := hafter.answered hh
    given := ⟨hl.vars, hl.arrays, hpools⟩
    addr k v hk := by simpa [totalCells] using hl.packed.addr_eq hk
    apart := hl.packed.apart
    covered addr := by simpa [hl.free] using hl.packed.exists_covers_iff
    free_le := hl.free_le
    scalar name w block := defineVar_isOk_iff name block w
    temporary w := by
      rw [temp_isOk_iff, hpools w]
      exact or_congr_left ⟨List.exists_mem_of_ne_nil _, fun ⟨v, hv⟩ => List.ne_nil_of_mem hv⟩
    slot := hl.slot
    array name w len block := hl.defineArray_isError_iff name block w len
    refused q why a' hq := by
      have hstep := a.exchange_serve q
      rw [hq] at hstep
      exact hstep.refused }

/-- A byte, a nibble and two words of one name; the byte is put back twice and taken once, and there
is an array. -/
theorem requests_met_exactly_mixed : ∃ h a, After ReleasesGiven h a
    ∧ h.scalars.map Var.addr = [0, 2, 3, 7] ∧ (h.waiting .byte).length = 1 ∧ h.arrays.length = 1
    ∧ MeetsExactly h a := by
  let t : Var := ⟨"$SYS0", .byte, 0, "", true⟩
  have h₁ : After ReleasesGiven _ _ := .served (q := .temporary .byte) .new nofun
  have h₂ := h₁.served (q := .scalar "n" .nibble "main") nofun
  have h₃ := h₂.served (q := .scalar "w" .word "main") nofun
  have h₄ := h₃.served (q := .scalar "w" .word "main") nofun
  have h₅ := h₄.served (q := .release t) (by rintro _ ⟨⟩ -; decide)
  have h₆ := h₅.served (q := .release t) (by rintro _ ⟨⟩ -; decide)
  have h₇ := h₆.served (q := .temporary .byte) nofun
  have h₈ := h₇.served (q := .array "a" .word 64 "main") nofun
  exact ⟨_, _, h₈, by decide, by decide, by decide, requests_met_exactly h₈⟩

end Allocator

end NibblePascal
