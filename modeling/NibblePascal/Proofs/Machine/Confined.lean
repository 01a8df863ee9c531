import NibblePascal.Proofs.Assembly.Guarded
import NibblePascal.Proofs.Fragments.Arithmetic

/-!
# Runs of guarded code

A run of guarded code stays within its territory.

* `State.Executed` says what an instruction does to the bank, to the place in the code, to the
  memory and to the registers;
* `T.Confines lines m s`: the state `s` of a run of `lines` that began with the memory `m` has not
  left the territory; every step keeps it, `Confines.step`, and so does every run,
  `Confines.steps`.
-/

namespace NibblePascal

/-! ### One instruction -/

/-- The registers, the cells and the inputs hold digits to the base sixteen. -/
structure State.Digits (s : State) : Prop where
  acc : s.acc < 16
  bl : s.bl < 16
  bh : s.bh < 16
  mem : s.mem.Nibbles
  inp : ∀ x ∈ s.inp, x < 16

/-- The cell that an instruction writes to. -/
def State.stored? (s : State) : Instruction → Option Nat
  | .sta (.mem a) => some (s.direct a)
  | .sta (.banked a) => some (s.banked a)
  | _ => none

/-- What the instruction `i`, whose jump leads to `d`, makes of a state. -/
structure State.Executed (s : State) (i : Instruction) (d : Nat) (t : State) : Prop where
  bank : t.bank = (Line.inst i).bankAfter s.bank
  pc : t.pc = s.pc ∨ (∃ kind target, i = .jump kind target) ∧ t.pc = d
  mem : t.mem = s.mem ∧ s.stored? i = none ∨
    ∃ addr, s.stored? i = some addr ∧ t.mem = s.mem.write addr s.acc
  registers : s.Digits → t.acc < 16 ∧ t.bl < 16 ∧ t.bh < 16
  inp : t.inp = s.inp

namespace State

variable {s t : State} {i : Instruction} {d addr : Nat}

theorem executed_of_loadFrom (hi : ∀ bank, (Line.inst i).bankAfter bank = bank)
    (hs : s.stored? i = none) (h : s.loadFrom addr = .next t) : s.Executed i d t := by
  unfold loadFrom at h
  split at h
  case h_1 value hvalue =>
    cases h
    refine ⟨(hi _).symm, .inl rfl, .inl ⟨rfl, hs⟩, fun hd => ⟨?_, hd.bl, hd.bh⟩, rfl⟩
    have hread := hd.mem addr
    rwa [Memory.read, hvalue] at hread
  case h_2 => cases h

theorem executed_of_storeTo (hi : ∀ bank, (Line.inst i).bankAfter bank = bank)
    (hs : s.stored? i = some addr) (h : s.storeTo addr = .next t) : s.Executed i d t := by
  unfold storeTo at h
  split at h
  · cases h
    exact ⟨(hi _).symm, .inl rfl, .inr ⟨addr, hs, rfl⟩, fun hd => ⟨hd.acc, hd.bl, hd.bh⟩, rfl⟩
  · cases h

theorem executed_of_exec (h : s.exec ⟨i, d⟩ = .next t) : s.Executed i d t := by
  cases i with
  | lda source =>
    cases source with
    | imm v =>
      cases h
      exact ⟨rfl, .inl rfl, .inl ⟨rfl, rfl⟩, fun hd => ⟨Nat.mod_lt _ (by decide), hd.bl, hd.bh⟩, rfl⟩
    | mem a | banked a => exact executed_of_loadFrom (fun _ => rfl) rfl h
  | sta dest =>
    cases dest with
    | mem a | banked a => exact executed_of_storeTo (fun _ => rfl) rfl h
  | ldbl =>
    cases h
    exact ⟨rfl, .inl rfl, .inl ⟨rfl, rfl⟩, fun hd => ⟨hd.acc, hd.acc, hd.bh⟩, rfl⟩
  | ldbh =>
    cases h
    exact ⟨rfl, .inl rfl, .inl ⟨rfl, rfl⟩, fun hd => ⟨hd.acc, hd.bl, hd.acc⟩, rfl⟩
  | alu op =>
    cases h
    exact ⟨rfl, .inl rfl, .inl ⟨rfl, rfl⟩, fun hd => ⟨op.result_lt _ _ _, hd.bl, hd.bh⟩, rfl⟩
  | jump kind target =>
    cases h
    by_cases htaken : kind.taken s.flags = true
    · rw [if_pos htaken]
      exact ⟨rfl, .inr ⟨⟨kind, target, rfl⟩, rfl⟩, .inl ⟨rfl, rfl⟩,
        fun hd => ⟨hd.acc, hd.bl, hd.bh⟩, rfl⟩
    · rw [if_neg htaken]
      exact ⟨rfl, .inl rfl, .inl ⟨rfl, rfl⟩, fun hd => ⟨hd.acc, hd.bl, hd.bh⟩, rfl⟩
  | out port =>
    simp only [exec] at h
    split at h <;> cases h
    exact ⟨rfl, .inl rfl, .inl ⟨rfl, rfl⟩, fun hd => ⟨hd.acc, hd.bl, hd.bh⟩, rfl⟩
  | inp port =>
    simp only [exec] at h
    split at h <;> cases h
    exact ⟨rfl, .inl rfl, .inl ⟨rfl, rfl⟩,
      fun hd => ⟨hd.inp _ (Vector.getElem_mem _), hd.bl, hd.bh⟩, rfl⟩
  | hlt => cases h
  | nop | cmp | stc | bnk =>
    cases h
    exact ⟨rfl, .inl rfl, .inl ⟨rfl, rfl⟩, fun hd => ⟨hd.acc, hd.bl, hd.bh⟩, rfl⟩

namespace Executed

theorem digits (h : s.Executed i d t) (hd : s.Digits) : t.Digits := by
  obtain ⟨hacc, hbl, hbh⟩ := h.registers hd
  refine ⟨hacc, hbl, hbh, ?_, h.inp ▸ hd.inp⟩
  obtain ⟨hmem, -⟩ | ⟨addr, -, hmem⟩ := h.mem
  · exact hmem ▸ hd.mem
  · exact hmem ▸ Memory.nibbles_write hd.mem hd.acc

/-- Only the cell that an instruction writes to can change. -/
theorem read_eq (h : s.Executed i d t) (ha : s.stored? i ≠ some addr) :
    t.mem.read addr = s.mem.read addr := by
  obtain ⟨hmem, -⟩ | ⟨other, hother, hmem⟩ := h.mem
  · rw [hmem]
  · rw [hmem]
    exact Memory.read_write_of_ne _ _ fun heq => ha (heq ▸ hother)

end Executed

end State

/-! ### Places in the code -/

namespace Image

variable {image : Image} {ρ : String → Nat} {pc : Nat} {op : Op} {lines : List Line}

/-- A step executes the instruction that comes next. -/
theorem exists_executed {s t : State} (h : image.step? s = some t) :
    ∃ op, image.ops[s.pc]? = some op ∧ ({ s with pc := s.pc + 1 } : State).Executed op.inst op.target t := by
  unfold step? at h
  split at h
  case h_1 => cases h
  case h_2 op hop =>
    split at h
    case h_2 => cases h
    case h_1 hexec =>
      cases h
      exact ⟨op, hop, State.executed_of_exec hexec⟩

theorem digits_of_step {s t : State} (h : image.step? s = some t) (hd : s.Digits) : t.Digits := by
  obtain ⟨op, -, he⟩ := exists_executed h
  exact he.digits ⟨hd.acc, hd.bl, hd.bh, hd.mem, hd.inp⟩

/-- Where there is an instruction, it is the next one among the lines. -/
theorem Holds.next_inst (h : image.Holds ρ pc lines) (hend : image.ops[pc + codeSize lines]? = none)
    (hop : image.ops[pc]? = some op) :
    ∃ before i after, lines = before ++ .inst i :: after ∧ codeSize before = 0
      ∧ op = ⟨i, destination ρ i⟩ := by
  have hpos : 0 < codeSize lines := by
    by_contra hzero
    rw [Nat.eq_zero_of_not_pos hzero, Nat.add_zero, hop] at hend
    cases hend
  obtain ⟨before, i, after, hlines, hb, hop'⟩ := h.exists_inst hpos
  exact ⟨before, i, after, hlines, hb, Option.some.inj (hop.symm.trans hop')⟩

/-- A label stands among the lines, at its place. -/
theorem eq_append_of_mem_labels {name : String} {pos : Nat} (h : (name, pos) ∈ labels pc lines) :
    ∃ before after, lines = before ++ .label name :: after ∧ pos = pc + codeSize before := by
  induction lines generalizing pc with
  | nil => cases h
  | cons l lines ih =>
    have hrest : (name, pos) ∈ labels (pc + codeSize [l]) lines →
        ∃ before after, l :: lines = before ++ .label name :: after
          ∧ pos = pc + codeSize before := by
      intro h
      obtain ⟨before, after, rfl, rfl⟩ := ih h
      exact ⟨l :: before, after, rfl, by rw [codeSize_cons l before, Nat.add_assoc]⟩
    cases l with
    | label other =>
      obtain heq | h := List.mem_cons.1 h
      · cases heq
        exact ⟨[], lines, rfl, rfl⟩
      · exact hrest h
    | inst | comment | release | endProc | raw => exact hrest h

end Image

namespace Territory

variable {T : Territory} {lines before after : List Line} {bank bank' : Nat}

theorem Guards.bank_eq (h : T.Guards bank lines bank') (hl : codeSize lines = 0) : bank' = bank := by
  induction lines generalizing bank with
  | nil => exact h.symm
  | cons l lines ih =>
    cases l with
    | inst i => cases hl
    | label | comment | release | endProc | raw => exact ih h.2 hl

/-- The selected bank depends on the place only. -/
theorem Guards.unique {mid : Nat} (h : T.Guards bank lines mid) (h' : T.Guards bank lines bank') :
    mid = bank' := by
  induction lines generalizing bank with
  | nil => exact h.symm.trans h'
  | cons l lines ih => exact ih h.2 h'.2

/-- The scalars and arrays of the territory lie where they should. -/
structure Placed (T : Territory) : Prop where
  scalar : ∀ v, T.scalar v → v.Placed
  array : ∀ r, T.array r → r.Placed

/-- The cells of the territory: those of its scalars and the slots of its arrays. -/
def Reaches (T : Territory) (addr : Nat) : Prop :=
  T.Owns addr ∨ ∃ r, T.array r ∧ r.base ≤ addr ∧ addr < r.base + slotSize

variable {s t : State} {i : Instruction} {addr : Nat}

theorem Placed.direct_eq (h : T.Placed) (hbank : s.bank = 0) (ha : T.Owns addr) :
    s.direct addr = addr := by
  obtain ⟨v, hv, hc⟩ := ha
  have hlt : addr < 4096 := hc.2.trans_le (h.scalar v hv)
  rw [State.direct, hbank, Nat.zero_mul, Nat.add_zero, Nat.mod_eq_of_lt hlt]

/-- An access through `B` stays in the slot, whatever `B` holds. -/
theorem Placed.banked_mem (h : T.Placed) (hs : s.Digits) {r : ArrayVar} (hr : T.array r)
    (hbank : r.bank = s.bank) : r.base ≤ s.banked r.addr ∧ s.banked r.addr < r.base + slotSize := by
  obtain ⟨k, hk, haddr⟩ := (h.array r hr).slot
  have hbl := hs.bl
  have hbh := hs.bh
  simp only [State.banked, ArrayVar.base, haddr, hbank, slotSize, slotsPerBank] at hk ⊢
  omega

/-- An allowed store stays in the territory. -/
theorem Placed.reaches_of_stored (h : T.Placed) (hs : s.Digits) (hi : T.Allows s.bank (.inst i))
    (ha : s.stored? i = some addr) : T.Reaches addr := by
  unfold State.stored? at ha
  split at ha
  · obtain ⟨hbank, howns⟩ := hi
    rw [h.direct_eq hbank howns, Option.some.injEq] at ha
    exact .inl (ha ▸ howns)
  · obtain ⟨r, hr, hbank, rfl⟩ := hi
    rw [Option.some.injEq] at ha
    exact .inr ⟨r, hr, ha ▸ h.banked_mem hs hr hbank⟩
  · cases ha

/-- A state of a run of the lines that has not left the territory: the selected bank is that of
the place in the code, and no cell outside has changed. -/
structure Confines (T : Territory) (lines : List Line) (m : Memory) (s : State) : Prop where
  digits : s.Digits
  place : ∃ before after, lines = before ++ after ∧ codeSize before = s.pc
    ∧ T.Guards 0 before s.bank
  kept : ∀ addr, ¬ T.Reaches addr → s.mem.read addr = m.read addr

/-- Guarded code that is loaded. -/
structure Loads (T : Territory) (image : Image) (ρ : String → Nat) (lines : List Line) : Prop where
  placed : T.Placed
  guards : T.Keeps lines
  closed : Image.Closed lines
  holds : image.Holds ρ 0 lines
  ends : image.ops[codeSize lines]? = none

variable {image : Image} {ρ : String → Nat} {m : Memory} {op : Op}

theorem Confines.start (hm : m.Nibbles) {inp : Vector Nat 16} (hi : ∀ x ∈ inp, x < 16)
    (lines : List Line) : T.Confines lines m { mem := m, inp := inp } :=
  ⟨⟨Nat.zero_lt_succ _, Nat.zero_lt_succ _, Nat.zero_lt_succ _, hm, hi⟩, ⟨[], lines, rfl, rfl, rfl⟩, fun _ _ => rfl⟩

/-- The next instruction is allowed. -/
theorem Confines.next_inst (h : T.Confines lines m s) (hl : T.Loads image ρ lines)
    (hop : image.ops[s.pc]? = some op) :
    ∃ before i after, lines = before ++ .inst i :: after ∧ codeSize before = s.pc
      ∧ T.Guards 0 before s.bank ∧ T.Allows s.bank (.inst i)
      ∧ op = ⟨i, Image.destination ρ i⟩ := by
  obtain ⟨before, rest, rfl, hpc, hbefore⟩ := h.place
  have hrest := ((Image.holds_append 0 before rest).1 hl.holds).2
  have hend := hl.ends
  rw [codeSize_append, hpc] at hend
  rw [Nat.zero_add, hpc] at hrest
  obtain ⟨skip, i, after, rfl, hskip, rfl⟩ := hrest.next_inst hend hop
  obtain ⟨mid, hmid, hguards⟩ := guards_append.1 hl.guards
  obtain rfl := hmid.unique hbefore
  obtain ⟨bank, hbank, hi, -⟩ := guards_append.1 hguards
  obtain rfl := hbank.bank_eq hskip
  refine ⟨before ++ skip, i, after, by simp, by rw [codeSize_append, hpc, hskip, Nat.add_zero],
    guards_append.2 ⟨_, hbefore, hbank⟩, hi, rfl⟩

/-- Bank 0 is selected where there is a label. -/
theorem Loads.bank_of_label (hl : T.Loads image ρ lines) {name : String}
    (h : lines = before ++ .label name :: after) : T.Guards 0 before 0 := by
  subst h
  obtain ⟨mid, hmid, rfl, -⟩ := guards_append.1 hl.guards
  exact hmid

/-- A label that is jumped to. -/
theorem Loads.exists_label (hl : T.Loads image ρ lines) {name : String} {kind : JumpKind}
    (h : .inst (.jump kind name) ∈ lines) :
    ∃ before after, lines = before ++ .label name :: after ∧ ρ name = codeSize before := by
  have htarget : name ∈ jumpTargets lines := List.mem_filterMap.2 ⟨_, h, rfl⟩
  obtain ⟨l, hmem, hname⟩ := List.mem_filterMap.1 (hl.closed.jumps name htarget)
  obtain ⟨before, after, rfl⟩ := List.append_of_mem hmem
  cases l with
  | label other =>
    obtain rfl : other = name := Option.some.inj hname
    have hholds := ((Image.holds_append 0 before _).1 hl.holds).2.1
    rw [Nat.zero_add] at hholds
    exact ⟨before, after, rfl, hholds⟩
  | inst | comment | release | endProc | raw => cases hname

/-- A step stays in the territory. -/
theorem Confines.step (h : T.Confines lines m s) (hl : T.Loads image ρ lines)
    (hstep : image.step? s = some t) : T.Confines lines m t := by
  unfold Image.step? at hstep
  split at hstep
  case h_1 => cases hstep
  case h_2 op hop =>
    split at hstep
    case h_2 => cases hstep
    case h_1 hexec =>
      obtain ⟨before, i, after, hlines, hpc, hbefore, hi, rfl⟩ := h.next_inst hl hop
      cases hstep
      have he := State.executed_of_exec hexec
      have hdigits : ({ s with pc := s.pc + 1 } : State).Digits :=
        ⟨h.digits.1, h.digits.2, h.digits.3, h.digits.4, h.digits.5⟩
      refine ⟨he.digits hdigits, ?_, fun addr hout => ?_⟩
      · obtain hnext | ⟨⟨kind, target, rfl⟩, hjump⟩ := he.pc
        · refine ⟨before ++ [.inst i], after, by simp [hlines], ?_, ?_⟩
          · rw [codeSize_append, hpc, hnext]
            rfl
          · exact guards_append.2 ⟨s.bank, hbefore, hi, he.bank.symm⟩
        · have hmem : .inst (.jump kind target) ∈ lines := by simp [hlines]
          obtain ⟨before', after', hlines', hρ⟩ := hl.exists_label hmem
          have hzero : s.bank = 0 := hi
          have hbank : t.bank = 0 := he.bank.trans hzero
          rw [hbank]
          exact ⟨before', _, hlines', hρ.symm.trans hjump.symm, hl.bank_of_label hlines'⟩
      · rw [he.read_eq fun hstored => hout (hl.placed.reaches_of_stored hdigits hi hstored)]
        exact h.kept addr hout

/-- A run stays in the territory. -/
theorem Confines.steps (h : T.Confines lines m s) (hl : T.Loads image ρ lines) {n : Nat}
    (hsteps : image.steps n s = some t) : T.Confines lines m t := by
  induction n generalizing s with
  | zero =>
    cases hsteps
    exact h
  | succ n ih =>
    obtain ⟨u, hu, hut⟩ := Option.bind_eq_some_iff.1 hsteps
    exact ih (h.step hl hu) hut

/-- Bank 0 is selected whenever the run comes to a label. -/
theorem Confines.bank_of_label (h : T.Confines lines m s) (hl : T.Loads image ρ lines)
    {name : String} (hlabel : (name, s.pc) ∈ Image.labels 0 lines) : s.bank = 0 := by
  obtain ⟨before, after, hlines, hpc, hbefore⟩ := h.place
  obtain ⟨before', after', hlines', hpc'⟩ := Image.eq_append_of_mem_labels hlabel
  rw [Nat.zero_add] at hpc'
  have hbefore' := hl.bank_of_label hlines'
  -- Both places are before the same instruction, so only lines without code lie between them.
  obtain ⟨between, rfl | rfl⟩ : ∃ between, before' = before ++ between ∨ before = before' ++ between := by
    obtain ⟨between, hb⟩ | ⟨between, hb⟩ := List.prefix_or_prefix_of_prefix
      (hlines ▸ List.prefix_append before after) (hlines' ▸ List.prefix_append before' _)
    exacts [⟨between, .inl hb.symm⟩, ⟨between, .inr hb.symm⟩]
  · rw [codeSize_append] at hpc'
    obtain ⟨mid, hmid, hbetween⟩ := guards_append.1 hbefore'
    obtain rfl := hmid.unique hbefore
    exact (hbetween.bank_eq (by omega)).symm
  · rw [codeSize_append] at hpc
    obtain ⟨mid, hmid, hbetween⟩ := guards_append.1 hbefore
    obtain rfl := hmid.unique hbefore'
    exact hbetween.bank_eq (by omega)

end Territory

end NibblePascal
