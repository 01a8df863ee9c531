import NibblePascal.Proofs.Assembly.DeadStores
import NibblePascal.Proofs.Assembly.Tidied
import NibblePascal.Proofs.Machine.Confined
import NibblePascal.Proofs.Machine.Stuttering
import NibblePascal.Proofs.Simulation.Store

/-!
# Runs without dead stores

Straight code does the same without its dead stores, but for the contents of released cells.  While
both run, the memories agree on all cells but some stale ones: a stale cell has a mark of its
release, and the code that follows does not read it before it stores into it.

* `State.finish? s code` is the state in which straight code ends;
* `Stale P lines addr`: the content of the cell, one of those in `P`, is of no use to the lines;
* `finish?_dropDeadStores`: straight code with and without its dead stores.
-/

namespace NibblePascal

open Image

/-! ### Straight code that may halt -/

/-- Lines of straight code whose direct accesses and ports are within bounds. -/
def Line.isStraight : Line → Bool
  | .label _ | .raw _ _ | .inst (.jump _ _) => false
  | .inst (.lda (.mem addr)) | .inst (.sta (.mem addr)) => addr < 4096
  | .inst (.out port) | .inst (.inp port) => port < 16
  | _ => true

theorem Line.bankAfter_lt {bank : Nat} (h : bank < 16) (l : Line) : l.bankAfter bank < 16 := by
  unfold bankAfter
  split
  · exact Nat.mod_lt _ (by decide)
  · exact h

namespace State

/-- Bank 0 is selected for a direct access, and another bank for a banked one. -/
def Selects (s : State) : Instruction → Prop
  | .lda (.mem _) | .sta (.mem _) => s.bank = 0
  | .lda (.banked _) | .sta (.banked _) => s.bank ≠ 0
  | _ => True

/-- The state in which straight code ends, apart from the program counter. -/
def finish? (s : State) : List Instruction → Option State
  | [] => some s
  | i :: code =>
      match s.exec ⟨i, 0⟩ with
      | .next t => t.finish? code
      | .halt t => some t
      | .crash => none

/-- Every access of straight code has its bank. -/
def Orderly (s : State) : List Instruction → Prop
  | [] => True
  | i :: code => s.Selects i ∧ ∀ t, s.exec ⟨i, 0⟩ = .next t → t.Orderly code

/-- The cell that an instruction reads. -/
def loaded? (s : State) : Instruction → Option Nat
  | .lda (.mem a) => some (s.direct a)
  | .lda (.banked a) => some (s.banked a)
  | _ => none

variable {s t : State} {i : Instruction} {addr : Nat} {P : Nat → Prop} {m : Memory}

theorem finish?_cons {code : List Instruction} (h : s.exec ⟨i, 0⟩ = .next t) :
    s.finish? (i :: code) = t.finish? code := by
  rw [finish?, h]

theorem direct_eq (hbank : s.bank = 0) (haddr : addr < 4096) : s.direct addr = addr := by
  rw [direct, hbank, Nat.zero_mul, Nat.add_zero, Nat.mod_eq_of_lt haddr]

theorem banked_lt (hs : s.Digits) (hbank : s.bank < 16) (addr : Nat) :
    s.banked addr < memorySize := by
  have hbl := hs.bl
  have hbh := hs.bh
  simp only [banked, memorySize]
  omega

theorem loadFrom_eq (h : addr < memorySize) :
    s.loadFrom addr = .next { s with acc := s.mem.read addr } := by
  rw [loadFrom, Memory.read?_of_lt h]

theorem storeTo_eq (h : addr < memorySize) :
    s.storeTo addr = .next { s with mem := s.mem.write addr s.acc } := if_pos h

/-- Straight code does not crash. -/
theorem exists_exec (hi : (Line.inst i).isStraight = true) (hs : s.Digits) (hbank : s.bank < 16)
    (hsel : s.Selects i) : i = .hlt ∨ ∃ t, s.exec ⟨i, 0⟩ = .next t := by
  have hdirect {addr : Nat} (h : s.bank = 0) : s.direct addr < memorySize := by
    simp only [direct, h, memorySize]
    omega
  cases i with
  | lda source =>
    cases source with
    | imm v => exact .inr ⟨_, rfl⟩
    | mem a => exact .inr ⟨_, loadFrom_eq (hdirect hsel)⟩
    | banked a => exact .inr ⟨_, loadFrom_eq (banked_lt hs hbank a)⟩
  | sta dest =>
    cases dest with
    | mem a => exact .inr ⟨_, storeTo_eq (hdirect hsel)⟩
    | banked a => exact .inr ⟨_, storeTo_eq (banked_lt hs hbank a)⟩
  | out port => exact .inr ⟨_, dif_pos (of_decide_eq_true hi)⟩
  | inp port => exact .inr ⟨_, dif_pos (of_decide_eq_true hi)⟩
  | jump => cases hi
  | hlt => exact .inl rfl
  | _ => exact .inr ⟨_, rfl⟩

theorem of_loadFrom (h : s.loadFrom addr = .next t) :
    addr < memorySize ∧ t = { s with acc := s.mem.read addr } := by
  by_cases hlt : addr < memorySize
  · rw [loadFrom_eq hlt] at h
    cases h
    exact ⟨hlt, rfl⟩
  · have hnone : s.mem.read? addr = none := by simp [Memory.read?, hlt]
    rw [loadFrom, hnone] at h
    cases h

theorem of_storeTo (h : s.storeTo addr = .next t) :
    addr < memorySize ∧ t = { s with mem := s.mem.write addr s.acc } := by
  by_cases hlt : addr < memorySize
  · rw [storeTo_eq hlt] at h
    cases h
    exact ⟨hlt, rfl⟩
  · rw [storeTo, if_neg hlt] at h
    cases h

/-- A store brings the two memories together in its cell. -/
theorem sameBut_write {cell : Nat} (hsame : s.mem.SameBut P m) (hlt : cell < memorySize) (x : Nat) :
    (s.mem.write cell x).SameBut (fun addr => P addr ∧ some cell ≠ some addr) (m.write cell x) := by
  intro addr haddr
  by_cases heq : cell = addr
  · subst heq
    rw [Memory.read_write_same _ _ hlt, Memory.read_write_same _ _ hlt]
  · rw [Memory.read_write_of_ne _ _ heq, Memory.read_write_of_ne _ _ heq]
    exact hsame addr fun hP => haddr ⟨hP, fun h => heq (Option.some.inj h)⟩

/-- An instruction does the same with another memory, if that has the same content in the cell that
the instruction reads. -/
theorem exec_sameBut (hi : (Line.inst i).isStraight = true) (hsame : s.mem.SameBut P m)
    (hload : ∀ addr, s.loaded? i = some addr → ¬ P addr) (hexec : s.exec ⟨i, 0⟩ = .next t) :
    ∃ m', ({ s with mem := m } : State).exec ⟨i, 0⟩ = .next { t with mem := m' }
      ∧ t.mem.SameBut (fun addr => P addr ∧ s.stored? i ≠ some addr) m' := by
  have hkept : s.mem.SameBut (fun addr => P addr ∧ (none : Option Nat) ≠ some addr) m :=
    hsame.mono fun addr hP => ⟨hP, nofun⟩
  have hloads {addr : Nat} (hnot : ¬ P addr) (h : s.loadFrom addr = .next t) :
      ({ s with mem := m } : State).loadFrom addr = .next { t with mem := m } ∧ t.mem = s.mem := by
    obtain ⟨hlt, rfl⟩ := of_loadFrom h
    rw [loadFrom_eq hlt]
    exact ⟨by rw [hsame addr hnot], rfl⟩
  cases i with
  | lda source =>
    cases source with
    | imm v =>
      cases hexec
      exact ⟨m, rfl, hkept⟩
    | mem a | banked a =>
      obtain ⟨h, hmem⟩ := hloads (hload _ rfl) hexec
      exact ⟨m, h, hmem ▸ hkept⟩
  | sta dest =>
    cases dest with
    | mem a | banked a =>
      obtain ⟨hlt, rfl⟩ := of_storeTo hexec
      exact ⟨_, storeTo_eq hlt, sameBut_write hsame hlt s.acc⟩
  | out port | inp port =>
    have hport : port < 16 := of_decide_eq_true hi
    simp only [exec, hport, dif_pos] at hexec ⊢
    cases hexec
    exact ⟨m, rfl, hkept⟩
  | jump => cases hi
  | hlt => cases hexec
  | _ =>
    cases hexec
    exact ⟨m, rfl, hkept⟩

end State

/-! ### Straight code in its place -/

namespace Image

variable {image : Image} {ρ : String → Nat} {lines : List Line} {pc : Nat} {s t : State}

/-- In the run from `s`, direct accesses are executed with bank 0 selected, and banked ones with
another bank. -/
def KeepsBanks (image : Image) (s : State) : Prop :=
  ∀ n t op, image.steps n s = some t → image.ops[t.pc]? = some op → t.Selects op.inst

theorem KeepsBanks.step (h : image.KeepsBanks s) (hstep : image.step? s = some t) :
    image.KeepsBanks t :=
  fun n u op hu => h (n + 1) u op (by rw [steps_succ, hstep]; exact hu)

/-- Code that never leaves bank 0. -/
theorem KeepsBanks.of_bank_zero (hbank : s.bank = 0)
    (hops : ∀ op ∈ image.ops, ∀ t : State, t.bank = 0 →
      t.Selects op.inst ∧ (Line.inst op.inst).bankAfter 0 = 0) : image.KeepsBanks s := by
  intro n t op hsteps hop
  suffices hzero : t.bank = 0 from (hops op (Array.mem_of_getElem? hop) t hzero).1
  clear hop
  induction n generalizing s with
  | zero =>
    cases hsteps
    exact hbank
  | succ n ih =>
    obtain ⟨u, hu, hut⟩ := Option.bind_eq_some_iff.1 hsteps
    obtain ⟨op, hop, hexec⟩ := exists_executed hu
    refine ih ?_ hut
    rw [hexec.bank, show s.bank = 0 from hbank]
    exact (hops op (Array.mem_of_getElem? hop) s hbank).2

theorem exec_straight {i : Instruction} (hi : (Line.inst i).isStraight = true) (s : State)
    (pc target : Nat) :
    ({ s with pc := pc } : State).exec ⟨i, target⟩ = (s.exec ⟨i, 0⟩).atPc pc := by
  refine s.exec_atPc pc target ?_
  rintro kind name rfl
  cases hi

theorem Holds.orderly (hold : image.Holds ρ pc lines) (hlines : ∀ l ∈ lines, l.isStraight = true)
    (h : image.KeepsBanks { s with pc := pc }) : s.Orderly (lines.filterMap Line.inst?) := by
  induction lines generalizing pc s with
  | nil => trivial
  | cons l lines ih =>
    obtain ⟨hl, hrest⟩ := List.forall_mem_cons.1 hlines
    cases l with
    | inst i =>
      refine ⟨h 0 _ _ rfl hold.1, fun t ht => ih hold.2 hrest (h.step ?_)⟩
      have hexec := exec_straight hl s (pc + 1) (destination ρ i)
      rw [ht, Effect.atPc] at hexec
      simp only [step?, hold.1, hexec]
    | label | raw => cases hl
    | comment | release | endProc => exact ih hold hrest h

theorem Holds.halts_of_finish? (hold : image.Holds ρ pc lines)
    (hend : image.ops[pc + codeSize lines]? = none) (hlines : ∀ l ∈ lines, l.isStraight = true)
    (h : s.finish? (lines.filterMap Line.inst?) = some t) :
    ∃ pc', image.Halts { s with pc := pc } { t with pc := pc' } := by
  induction lines generalizing pc s with
  | nil =>
    cases h
    exact ⟨pc, halts_of_steps (n := 0) rfl hend⟩
  | cons l lines ih =>
    obtain ⟨hl, hrest⟩ := List.forall_mem_cons.1 hlines
    cases l with
    | inst i =>
      have hrun (limit : Nat) : image.run (limit + 1) { s with pc := pc }
          = image.resume limit ((s.exec ⟨i, 0⟩).atPc (pc + 1)) := by
        rw [run_succ (s := { s with pc := pc }) hold.1]
        exact congrArg (image.resume limit) (exec_straight hl s (pc + 1) _)
      have h : s.finish? (i :: lines.filterMap Line.inst?) = some t := h
      rw [State.finish?] at h
      cases hexec : s.exec ⟨i, 0⟩ with
      | next u =>
        rw [hexec] at h hrun
        have hend : image.ops[pc + 1 + codeSize lines]? = none := by
          rw [Nat.add_assoc, Nat.add_comm 1]
          exact hend
        obtain ⟨pc', limit, spare, hu⟩ := ih hold.2 hend hrest h
        exact ⟨pc', limit + 1, spare, (hrun limit).trans hu⟩
      | halt u =>
        rw [hexec] at h hrun
        cases h
        exact ⟨pc + 1, 1, 0, hrun 0⟩
      | crash =>
        rw [hexec] at h
        cases h
    | label | raw => cases hl
    | comment | release | endProc => exact ih hold hend hrest h

end Image

/-! ### Two runs -/

/-- Straight code that recycles cells, all of them in `P`. -/
structure Recycles (P : Nat → Prop) (lines : List Line) : Prop where
  straight : ∀ l ∈ lines, l.isStraight = true
  released : ∀ addr, .release addr ∈ lines → P addr
  recycled : Recycled lines

/-- The content of the cell, one of those in `P`, is of no use to the lines. -/
def Stale (P : Nat → Prop) (lines : List Line) (addr : Nat) : Prop :=
  P addr ∧ addr < 4096 ∧ Overwritten addr lines

namespace Recycles

variable {P : Nat → Prop} {l : Line} {lines rest shorter : List Line} {addr : Nat}

theorem tail (h : Recycles P (l :: lines)) : Recycles P lines where
  straight := (List.forall_mem_cons.1 h.straight).2
  released := fun addr hmem => h.released addr (List.mem_cons_of_mem _ hmem)
  recycled := h.recycled.2

theorem withoutRelease? (h : Recycles P rest)
    (hshorter : withoutRelease? addr rest = some shorter) : Recycles P shorter where
  straight := fun l hl => h.straight l ((tidied_of_withoutRelease? hshorter).sublist.subset hl)
  released := fun addr hl =>
    h.released addr ((tidied_of_withoutRelease? hshorter).sublist.subset hl)
  recycled := by
    obtain ⟨a, b, rfl, rfl, -⟩ := withoutRelease?_eq_some_iff.1 hshorter
    exact h.recycled.drop

/-- A cell that is stored into and then released unread is stale behind the store. -/
theorem overwritten_of_dead (h : Recycles P rest)
    (hshorter : NibblePascal.withoutRelease? addr rest = some shorter) :
    P addr ∧ Overwritten addr shorter := by
  obtain ⟨a, b, rfl, rfl, ha⟩ := withoutRelease?_eq_some_iff.1 hshorter
  refine ⟨h.released addr (by simp), ?_⟩
  rw [overwritten_append fun l hl => directCell?_of_mayUse (ha l hl).2]
  exact h.recycled.overwritten

end Recycles

namespace Stale

variable {P : Nat → Prop} {s : State} {i : Instruction} {lines : List Line} {addr : Nat}

/-- An instruction reads no stale cell. -/
theorem not_loaded (hi : (Line.inst i).isStraight = true) (hsel : s.Selects i)
    (hload : s.loaded? i = some addr) : ¬ Stale P (.inst i :: lines) addr := by
  rintro ⟨-, hlt, hover⟩
  unfold State.loaded? at hload
  split at hload
  case h_1 a =>
    rw [State.direct_eq hsel (of_decide_eq_true hi), Option.some.injEq] at hload
    exact not_overwritten_load (hload ▸ hover)
  case h_2 a =>
    have hbank : s.bank ≠ 0 := hsel
    rw [Option.some.injEq, State.banked] at hload
    omega
  case h_3 => cases hload

theorem of_cons_ne {l : Line} (hl : l.directCell? ≠ some addr) (h : Stale P (l :: lines) addr) :
    Stale P lines addr :=
  ⟨h.1, h.2.1, (overwritten_cons hl).1 h.2.2⟩

/-- A stale cell stays so unless it is stored into. -/
theorem of_cons (hi : (Line.inst i).isStraight = true) (hsel : s.Selects i)
    (h : Stale P (.inst i :: lines) addr) (hstore : s.stored? i ≠ some addr) :
    Stale P lines addr := by
  refine h.of_cons_ne fun hcell => ?_
  unfold Line.directCell? at hcell
  split at hcell
  case h_1 a heq =>
    cases heq
    cases hcell
    exact not_overwritten_load h.2.2
  case h_2 a heq =>
    cases heq
    cases hcell
    exact hstore (congrArg some (State.direct_eq hsel h.2.1))
  case h_3 => cases hcell

end Stale

/-- The memory behind a dead store agrees with the memory in which it was not made. -/
theorem sameBut_of_dead {P : Nat → Prop} {m m' : Memory} {addr x : Nat} {rest shorter : List Line}
    (h : Recycles P rest) (hshorter : withoutRelease? addr rest = some shorter)
    (haddr : addr < 4096) (hsame : m.SameBut (Stale P (.inst (.sta (.mem addr)) :: rest)) m') :
    (m.write addr x).SameBut (Stale P shorter) m' := by
  intro other hfresh
  have hne : addr ≠ other := by
    rintro rfl
    obtain ⟨hP, hover⟩ := h.overwritten_of_dead hshorter
    exact hfresh ⟨hP, haddr, hover⟩
  rw [Memory.read_write_of_ne _ _ hne]
  refine hsame other fun hstale => hfresh ?_
  have hcell : (Line.inst (.sta (.mem addr))).directCell? ≠ some other :=
    fun h => hne (Option.some.inj h)
  obtain ⟨hP, hlt, hover⟩ := hstale.of_cons_ne hcell
  obtain ⟨a, b, rfl, rfl, -⟩ := withoutRelease?_eq_some_iff.1 hshorter
  exact ⟨hP, hlt, overwritten_release.1 hover⟩

/-- Straight code ends without its dead stores as it does with them, but for the contents of
released cells. -/
theorem finish?_dropDeadStores {P : Nat → Prop} {lines : List Line} {s : State} {m : Memory}
    (h : Recycles P lines) (hs : s.Digits) (hbank : s.bank < 16)
    (horder : s.Orderly (lines.filterMap Line.inst?))
    (hsame : s.mem.SameBut (Stale P lines) m) :
    ∃ t m', s.finish? (lines.filterMap Line.inst?) = some t
      ∧ ({ s with mem := m } : State).finish? ((dropDeadStores lines).filterMap Line.inst?)
        = some { t with mem := m' }
      ∧ t.mem.SameBut P m' := by
  fun_induction dropDeadStores lines generalizing s m with
  | case1 => exact ⟨s, m, rfl, rfl, hsame.mono fun addr hstale => hstale.1⟩
  | case2 l rest shorter hdead ih =>
    obtain ⟨addr, hstored, hshorter⟩ := Option.bind_eq_some_iff.1 hdead
    obtain rfl := eq_of_storedCell? hstored
    have haddr : addr < 4096 := of_decide_eq_true (h.straight _ List.mem_cons_self)
    have hcode : rest.filterMap Line.inst? = shorter.filterMap Line.inst? := by
      obtain ⟨a, b, rfl, rfl, -⟩ := withoutRelease?_eq_some_iff.1 hshorter
      rw [List.filterMap_append, List.filterMap_append, List.filterMap_cons_none rfl]
    have hexec : s.exec ⟨.sta (.mem addr), 0⟩
        = .next { s with mem := s.mem.write addr s.acc } := by
      have hdirect := State.direct_eq horder.1 haddr
      exact (congrArg s.storeTo hdirect).trans (State.storeTo_eq (haddr.trans (by decide)))
    have horder' := horder.2 _ hexec
    rw [hcode] at horder'
    obtain ⟨t, m', ht, ht', hfinal⟩ := ih (h.tail.withoutRelease? hshorter)
      ((State.executed_of_exec hexec).digits hs) hbank horder'
      (sameBut_of_dead h.tail hshorter haddr hsame)
    refine ⟨t, m', (State.finish?_cons hexec).trans ?_, ht', hfinal⟩
    rw [hcode]
    exact ht
  | case3 l rest hdead ih =>
    cases l with
    | inst i =>
      have hi := h.straight _ List.mem_cons_self
      obtain rfl | ⟨t, hexec⟩ := State.exists_exec hi hs hbank horder.1
      · exact ⟨s, m, rfl, rfl, hsame.mono fun addr hstale => hstale.1⟩
      · obtain ⟨m', hexec', hsame'⟩ := State.exec_sameBut hi hsame
          (fun addr hload => Stale.not_loaded hi horder.1 hload) hexec
        have hexecuted := State.executed_of_exec hexec
        obtain ⟨u, m'', hu, hu', hfinal⟩ := ih h.tail (hexecuted.digits hs)
          (hexecuted.bank ▸ Line.bankAfter_lt hbank _) (horder.2 t hexec)
          (hsame'.mono fun addr hstale => hstale.1.of_cons hi horder.1 hstale.2)
        exact ⟨u, m'', (State.finish?_cons hexec).trans hu, (State.finish?_cons hexec').trans hu',
          hfinal⟩
    | label | raw | comment | release | endProc =>
      exact ih h.tail hs hbank horder
        (hsame.mono fun addr hstale => hstale.of_cons_ne fun h => by cases h)

/-- Straight code can be run. -/
theorem Image.Closed.of_straight {lines : List Line} (h : ∀ l ∈ lines, l.isStraight = true) :
    Closed lines where
  nodup := by
    have hnil : labelNames lines = [] := by
      refine List.filterMap_eq_nil_iff.2 fun l hl => ?_
      cases l with
      | label => cases h _ hl
      | _ => rfl
    rw [hnil]
    exact List.nodup_nil
  jumps := by
    intro t ht
    obtain ⟨l, hl, htarget⟩ := List.mem_filterMap.1 ht
    unfold Line.target? at htarget
    split at htarget
    · cases h _ hl
    · cases htarget
  noRaw := by
    intro l hl
    cases l with
    | raw => cases h _ hl
    | _ => rfl

/-- Straight code stops without its dead stores as it does with them, in the same state but for the
program counter and the contents of released cells: from every state of digits in which its direct
accesses find bank 0 selected and its banked ones another bank. -/
theorem dropDeadStores_preserves_runs {lines : List Line}
    (hlines : ∀ l ∈ lines, l.isStraight = true) (hrecycled : Recycled lines) :
    ∃ image image', ofLines? lines = some image ∧ ofLines? (dropDeadStores lines) = some image'
      ∧ ∀ s : State, s.pc = 0 → s.Digits → s.bank < 16 → image.KeepsBanks s →
        ∃ t pc m, image.Halts s t ∧ image'.Halts s { t with pc := pc, mem := m }
          ∧ ∀ addr, .release addr ∉ lines → m.read addr = t.mem.read addr := by
  have htidied := tidied_dropDeadStores lines
  have hclosed := Closed.of_straight hlines
  obtain ⟨image, himage, hold, hend⟩ := hclosed.exists_image
  obtain ⟨image', himage', hold', hend'⟩ := (hclosed.tidied htidied).exists_image
  refine ⟨image, image', himage, himage', fun s hpc hs hbank hkeeps => ?_⟩
  have hstart : { s with pc := 0 } = s := by rw [← hpc]
  have horder : s.Orderly (lines.filterMap Line.inst?) :=
    hold.orderly hlines (hstart.symm ▸ hkeeps)
  obtain ⟨t, m, ht, ht', hsame⟩ := finish?_dropDeadStores (P := (.release · ∈ lines))
    ⟨hlines, fun _ => id, hrecycled⟩ hs hbank horder (.refl _ s.mem)
  obtain ⟨pc, hhalts⟩ := hold.halts_of_finish? (by rwa [Nat.zero_add]) hlines ht
  obtain ⟨pc', hhalts'⟩ := hold'.halts_of_finish? (by rwa [Nat.zero_add])
    (fun l hl => hlines l (htidied.sublist.subset hl)) ht'
  rw [hstart] at hhalts hhalts'
  exact ⟨{ t with pc := pc }, pc', m, hhalts, hhalts', hsame⟩

/-- A cell that is released unread, stored into again, and read. -/
theorem dropDeadStores_preserves_runs_recycled :
    let first : List Line := [.inst (.lda (.imm 3)), .inst (.sta (.mem 7)), .inst (.alu .not),
      .release 7]
    let second : List Line := [.inst (.sta (.mem 7)), .inst (.lda (.imm 5)), .inst .ldbl,
      .inst (.lda (.mem 7)), .inst (.alu .add), .inst (.sta (.mem 8)), .release 7, .inst .hlt]
    let lines := first ++ second
    (∀ l ∈ lines, l.isStraight = true) ∧ Recycled lines
      ∧ dropDeadStores lines = [.inst (.lda (.imm 3)), .inst (.alu .not)] ++ second
      ∧ ∃ image image', ofLines? lines = some image ∧ ofLines? (dropDeadStores lines) = some image'
        ∧ ∃ t pc m, image.Halts {} t ∧ image'.Halts {} { t with pc := pc, mem := m }
          ∧ ∀ addr, .release addr ∉ lines → m.read addr = t.mem.read addr := by
  intro first second lines
  have hlines : ∀ l ∈ lines, l.isStraight = true := by decide
  have hrecycled : Recycled lines := by decide
  have hdigits : ({} : State).Digits :=
    ⟨by decide, by decide, by decide, Memory.nibbles_blank, by simp [Vector.mem_replicate]⟩
  obtain ⟨image, image', himage, himage', hruns⟩ := dropDeadStores_preserves_runs hlines hrecycled
  refine ⟨hlines, hrecycled, by decide +kernel, image, image', himage, himage',
    hruns {} rfl hdigits (by decide) (.of_bank_zero rfl fun op hop t ht => ?_)⟩
  have hcode : ofLines? lines = some ⟨#[⟨.lda (.imm 3), 0⟩, ⟨.sta (.mem 7), 0⟩, ⟨.alu .not, 0⟩,
    ⟨.sta (.mem 7), 0⟩, ⟨.lda (.imm 5), 0⟩, ⟨.ldbl, 0⟩, ⟨.lda (.mem 7), 0⟩, ⟨.alu .add, 0⟩,
    ⟨.sta (.mem 8), 0⟩, ⟨.hlt, 0⟩]⟩ := by decide
  cases himage.symm.trans hcode
  simp only [List.mem_toArray, List.mem_cons, List.not_mem_nil, or_false] at hop
  rcases hop with rfl | rfl | rfl | rfl | rfl | rfl | rfl | rfl | rfl | rfl <;>
    simp [State.Selects, Line.bankAfter, ht]

end NibblePascal
