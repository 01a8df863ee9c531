import NibblePascal.Code.Scalar
import NibblePascal.Proofs.Machine.Numbers
import NibblePascal.Proofs.Machine.Placement

/-!
# Straight code

Code without jumps is a function on states, `State.performAll`, wherever it stands.  Between
two fragments of a program only some of a state counts: a `Point` says where the machine is
and what its memory and ports hold, while bank 0 is selected and the accumulator, `B` and the
flags may be anything.

* `image.Leads p q`: from every state at the point `p` the run comes to a state at `q`, and
  `image.Advances p q` says that it takes a step at least;
* `image.Lasts k p`: from every state at `p` the run takes `k` steps at least;
* `Transforms lines m m'`: straight code that turns the memory `m` into `m'` and leaves bank 0
  selected and the ports alone.
-/

namespace NibblePascal

/-! ### Points -/

/-- A place in the code, with the contents of the memory and of the ports. -/
structure Point where
  pc : Nat
  mem : Memory
  out : Vector Nat 16
  inp : Vector Nat 16

/-- The state is at a point, with bank 0 selected. -/
structure State.At (s : State) (p : Point) : Prop where
  pc : s.pc = p.pc
  bank : s.bank = 0
  mem : s.mem = p.mem
  out : s.out = p.out
  inp : s.inp = p.inp

/-- The point of a state. -/
def State.point (s : State) : Point := ⟨s.pc, s.mem, s.out, s.inp⟩

theorem State.at_iff {s : State} {p : Point} : s.At p ↔ s.bank = 0 ∧ s.point = p := by
  constructor
  · rintro ⟨hpc, hb, hm, ho, hi⟩
    exact ⟨hb, by simp [point, hpc, hm, ho, hi]⟩
  · rintro ⟨hb, rfl⟩
    exact ⟨rfl, hb, rfl, rfl, rfl⟩

/-- The state `t` is `s` but for the program counter, the accumulator, `B` and the flags. -/
structure State.Same (s t : State) : Prop where
  bank : t.bank = s.bank
  mem : t.mem = s.mem
  out : t.out = s.out
  inp : t.inp = s.inp

namespace State

variable {s t u : State} {p : Point}

theorem Same.refl (s : State) : s.Same s := ⟨rfl, rfl, rfl, rfl⟩

theorem Same.trans (h : s.Same t) (h' : t.Same u) : s.Same u :=
  ⟨h'.bank.trans h.bank, h'.mem.trans h.mem, h'.out.trans h.out, h'.inp.trans h.inp⟩

theorem Same.point_eq (h : s.Same t) (pc : Nat) :
    { t.point with pc := pc } = { s.point with pc := pc } := by
  simp [point, h.mem, h.out, h.inp]

end State

namespace Image

variable {image : Image} {ρ : String → Nat} {p q r : Point}

/-- The run from `s` comes to a state at `q`. -/
def Arrives (image : Image) (s : State) (q : Point) : Prop :=
  ∃ n t, image.steps n s = some t ∧ t.At q

/-- From every state at `p` the run comes to a state at `q`. -/
def Leads (image : Image) (p q : Point) : Prop := ∀ s : State, s.At p → image.Arrives s q

/-- The run from `s` comes to a state at `q` by one step at least. -/
def Proceeds (image : Image) (s : State) (q : Point) : Prop :=
  ∃ n t, image.steps (n + 1) s = some t ∧ t.At q

/-- From every state at `p` the run comes to a state at `q` by one step at least. -/
def Advances (image : Image) (p q : Point) : Prop := ∀ s : State, s.At p → image.Proceeds s q

/-- From every state at `p` the run takes `k` steps at least. -/
def Lasts (image : Image) (k : Nat) (p : Point) : Prop :=
  ∀ s : State, s.At p → ∃ t, image.steps k s = some t

theorem leads_iff : image.Leads p q ↔
    ∀ s : State, s.bank = 0 → s.point = p → image.Arrives s q := by
  simp only [Leads, State.at_iff, and_imp]

/-- The same place by another name. -/
theorem Arrives.at_pc {s : State} {q q' : Point} (h : image.Arrives s q) (hpc : q.pc = q'.pc)
    (hrest : { q' with pc := q.pc } = q) : image.Arrives s q' := by
  rw [hpc] at hrest
  have hq : q' = q := hrest
  rwa [hq]

theorem Leads.at_pc {q' : Point} (h : image.Leads p q) (hpc : q.pc = q'.pc)
    (hrest : { q' with pc := q.pc } = q) : image.Leads p q' :=
  fun s hs => (h s hs).at_pc hpc hrest

theorem Leads.refl (p : Point) : image.Leads p p := fun s hs => ⟨0, s, rfl, hs⟩

theorem Leads.trans (h : image.Leads p q) (h' : image.Leads q r) : image.Leads p r := by
  intro s hs
  obtain ⟨m, t, hst, ht⟩ := h s hs
  obtain ⟨n, u, htu, hu⟩ := h' t ht
  exact ⟨m + n, u, steps_trans hst htu, hu⟩

theorem Advances.leads (h : image.Advances p q) : image.Leads p q := by
  intro s hs
  obtain ⟨n, t, hst, ht⟩ := h s hs
  exact ⟨n + 1, t, hst, ht⟩

theorem Leads.advances (h : image.Leads p q) (h' : image.Advances q r) : image.Advances p r := by
  intro s hs
  obtain ⟨m, t, hst, ht⟩ := h s hs
  obtain ⟨n, u, htu, hu⟩ := h' t ht
  exact ⟨m + n, u, by rw [Nat.add_assoc]; exact steps_trans hst htu, hu⟩

theorem Lasts.of_leads {k : Nat} (h : image.Leads p q) (h' : image.Lasts k q) :
    image.Lasts k p := by
  intro s hs
  obtain ⟨n, t, hst, ht⟩ := h s hs
  obtain ⟨u, htu⟩ := h' t ht
  exact steps_of_le (Nat.le_add_left k n) (steps_trans hst htu)

theorem Lasts.of_advances {k : Nat} (h : image.Advances p q) (h' : image.Lasts k q) :
    image.Lasts (k + 1) p := by
  intro s hs
  obtain ⟨n, t, hst, ht⟩ := h s hs
  obtain ⟨u, htu⟩ := h' t ht
  exact steps_of_le (by omega) (steps_trans hst htu)

theorem Lasts.zero (p : Point) : image.Lasts 0 p := fun s _ => ⟨s, rfl⟩

theorem Lasts.mono {j k : Nat} (hjk : j ≤ k) (h : image.Lasts k p) : image.Lasts j p := by
  intro s hs
  obtain ⟨t, ht⟩ := h s hs
  exact steps_of_le hjk ht

end Image

/-! ### Straight code as a function -/

/-- An effect with another program counter. -/
def Effect.atPc (pc : Nat) : Effect → Effect
  | .next s => .next { s with pc := pc }
  | .halt s => .halt { s with pc := pc }
  | .crash => .crash

namespace State

/-- The effect of a line without a jump, apart from the program counter. -/
def perform (s : State) : Line → Option State
  | .inst (.jump _ _) => none
  | .inst i =>
      match s.exec ⟨i, 0⟩ with
      | .next t => some t
      | _ => none
  | .raw _ _ => none
  | _ => some s

/-- The effect of lines without jumps, apart from the program counter. -/
def performAll (s : State) (lines : List Line) : Option State := lines.foldlM perform s

@[simp] theorem performAll_nil (s : State) : s.performAll [] = some s := rfl

@[simp] theorem performAll_cons (s : State) (l : Line) (lines : List Line) :
    s.performAll (l :: lines) = (s.perform l).bind (·.performAll lines) := rfl

@[simp] theorem performAll_append (s : State) (a b : List Line) :
    s.performAll (a ++ b) = (s.performAll a).bind (·.performAll b) := by
  simp [performAll, List.foldlM_append]

@[simp] theorem perform_label (s : State) (name : String) :
    s.perform (.label name) = some s := rfl

@[simp] theorem perform_comment (s : State) (text : String) :
    s.perform (.comment text) = some s := rfl

@[simp] theorem perform_release (s : State) (addr : Nat) :
    s.perform (.release addr) = some s := rfl

@[simp] theorem perform_load (s : State) {addr : Nat} (hb : s.bank = 0) (ha : addr < 4096) :
    s.perform (Code.load addr) = some { s with acc := s.mem.read addr } := by
  have hd : s.direct addr = addr := by simp [direct, hb, Nat.mod_eq_of_lt ha]
  have hr : s.mem.read? addr = some (s.mem.read addr) :=
    Memory.read?_of_lt (lt_trans ha (by decide))
  simp [Code.load, perform, exec, loadFrom, hd, hr]

@[simp] theorem perform_store (s : State) {addr : Nat} (hb : s.bank = 0) (ha : addr < 4096) :
    s.perform (Code.store addr) = some { s with mem := s.mem.write addr s.acc } := by
  have hd : s.direct addr = addr := by simp [direct, hb, Nat.mod_eq_of_lt ha]
  have hlt : addr < memorySize := lt_trans ha (by decide)
  simp [Code.store, perform, exec, storeTo, hd, hlt]

@[simp] theorem perform_loadImm (s : State) (value : Nat) :
    s.perform (Code.loadImm value) = some { s with acc := value % 16 } := by
  simp [Code.loadImm, perform, exec]

@[simp] theorem perform_alu (s : State) (op : AluOp) :
    s.perform (Code.alu op) =
      some { s with acc := (op.apply s.acc s.bl s.flags).1,
                    flags := (op.apply s.acc s.bl s.flags).2 } := rfl

@[simp] theorem perform_carry (s : State) (value : Nat) :
    s.perform (Code.carry value) =
      some { s with flags := { s.flags with carry := value != 0 } } := rfl

@[simp] theorem perform_toLow (s : State) :
    s.perform Code.toLow = some { s with bl := s.acc } := rfl

@[simp] theorem perform_toHigh (s : State) :
    s.perform Code.toHigh = some { s with bh := s.acc } := rfl

@[simp] theorem perform_cmp (s : State) :
    s.perform Code.cmp = some { s with flags := Flags.compare s.acc s.bl s.flags } := rfl

@[simp] theorem perform_bank (s : State) (value : Nat) :
    s.perform (Code.bank value) = some { s with bank := value % 16 } := rfl

@[simp] theorem perform_comment' (s : State) (text : String) :
    s.perform (Code.comment text) = some s := rfl

@[simp] theorem perform_loadBanked (s : State) {addr : Nat} (h : s.banked addr < memorySize) :
    s.perform (.inst (.lda (.banked addr))) =
      some { s with acc := s.mem.read (s.banked addr) } := by
  simp [perform, exec, loadFrom, Memory.read?_of_lt h]

@[simp] theorem perform_storeBanked (s : State) {addr : Nat} (h : s.banked addr < memorySize) :
    s.perform (.inst (.sta (.banked addr))) =
      some { s with mem := s.mem.write (s.banked addr) s.acc } := by
  simp [perform, exec, storeTo, h]

@[simp] theorem perform_nop (s : State) : s.perform (.inst .nop) = some s := rfl

/-- A loop over the cells of a number, from the lowest up, with an invariant. -/
theorem performAll_range {f : Nat → List Line} {P : Nat → State → Prop} {n : Nat} {s : State}
    (h0 : P 0 s)
    (hs : ∀ i < n, ∀ t, P i t → ∃ u, t.performAll (f i) = some u ∧ P (i + 1) u) :
    ∃ t, s.performAll ((List.range n).flatMap f) = some t ∧ P n t := by
  induction n with
  | zero => exact ⟨s, rfl, h0⟩
  | succ n ih =>
    obtain ⟨t, hst, ht⟩ := ih fun i hi => hs i (by omega)
    obtain ⟨u, htu, hu⟩ := hs n (by omega) t ht
    refine ⟨u, ?_, hu⟩
    simp [List.range_succ, hst, htu]

/-- A loop over the cells of a number, from the highest down, with an invariant. -/
theorem performAll_range_reverse {f : Nat → List Line} {P : Nat → State → Prop} {n : Nat}
    {s : State} (h0 : P n s)
    (hs : ∀ i < n, ∀ t, P (i + 1) t → ∃ u, t.performAll (f i) = some u ∧ P i u) :
    ∃ t, s.performAll ((List.range n).reverse.flatMap f) = some t ∧ P 0 t := by
  induction n generalizing s with
  | zero => exact ⟨s, rfl, h0⟩
  | succ n ih =>
    obtain ⟨t, hst, ht⟩ := hs n (by omega) s h0
    obtain ⟨u, htu, hu⟩ := ih ht fun i hi => hs i (by omega)
    refine ⟨u, ?_, hu⟩
    simp [List.range_succ, hst, htu]

theorem loadFrom_atPc (s : State) (pc addr : Nat) :
    ({ s with pc := pc } : State).loadFrom addr = (s.loadFrom addr).atPc pc := by
  unfold loadFrom
  cases s.mem.read? addr <;> rfl

theorem storeTo_atPc (s : State) (pc addr : Nat) :
    ({ s with pc := pc } : State).storeTo addr = (s.storeTo addr).atPc pc := by
  by_cases h : addr < memorySize <;> simp [storeTo, Effect.atPc, h]

/-- The program counter plays no part in an instruction that is no jump. -/
theorem exec_atPc (s : State) (pc target : Nat) {i : Instruction}
    (hi : ∀ kind name, i ≠ .jump kind name) :
    ({ s with pc := pc } : State).exec ⟨i, target⟩ = (s.exec ⟨i, 0⟩).atPc pc := by
  cases i with
  | jump kind name => exact absurd rfl (hi kind name)
  | lda source =>
    cases source with
    | imm v => rfl
    | mem a => exact loadFrom_atPc s pc _
    | banked a => exact loadFrom_atPc s pc _
  | sta dest =>
    cases dest with
    | mem a => exact storeTo_atPc s pc _
    | banked a => exact storeTo_atPc s pc _
  | out port => by_cases h : port < 16 <;> simp [exec, Effect.atPc, h]
  | inp port => by_cases h : port < 16 <;> simp [exec, Effect.atPc, h]
  | _ => rfl

theorem exec_of_perform {s t : State} {i : Instruction} (h : s.perform (.inst i) = some t)
    (pc target : Nat) :
    ({ s with pc := pc } : State).exec ⟨i, target⟩ = .next { t with pc := pc } := by
  have hi : ∀ kind name, i ≠ .jump kind name := by
    rintro kind name rfl
    cases h
  have hexec : s.exec ⟨i, 0⟩ = .next t := by
    cases i with
    | jump kind name => cases h
    | _ =>
      simp only [perform] at h
      split at h
      · rename_i hexec
        cases h
        exact hexec
      · cases h
  rw [exec_atPc s pc target hi, hexec, Effect.atPc]

end State

namespace Image

variable {image : Image} {ρ : String → Nat} {p : Point}

/-- Straight code does the same wherever it stands. -/
theorem steps_of_performAll {lines : List Line} {s t : State} {pc : Nat}
    (hold : image.Holds ρ pc lines) (h : s.performAll lines = some t) :
    image.steps (codeSize lines) { s with pc := pc } =
      some { t with pc := pc + codeSize lines } := by
  induction lines generalizing s pc with
  | nil =>
    cases h
    rfl
  | cons l lines ih =>
    rw [State.performAll_cons] at h
    obtain ⟨u, hu, hut⟩ := Option.bind_eq_some_iff.1 h
    cases l with
    | inst i =>
      obtain ⟨hop, hold⟩ := hold
      have hstep : image.step? { s with pc := pc } = some { u with pc := pc + 1 } := by
        simp only [step?, hop, State.exec_of_perform hu (pc + 1) (destination ρ i)]
      rw [codeSize_inst, steps_succ, hstep, Option.bind_some, ih hold hut,
        Nat.add_right_comm pc 1]
      rfl
    | label name =>
      cases hu
      exact ih hold.2 hut
    | comment text =>
      cases hu
      exact ih hold hut
    | release addr =>
      cases hu
      exact ih hold hut
    | endProc name =>
      cases hu
      exact ih hold hut
    | raw command param => cases hu

end Image

/-! ### Straight code on points -/

/-- Straight code that turns the memory `m` into `m'`. -/
def Transforms (lines : List Line) (m m' : Memory) : Prop :=
  ∀ s : State, s.bank = 0 → s.mem = m →
    ∃ t, s.performAll lines = some t ∧ t.bank = 0 ∧ t.mem = m' ∧ t.out = s.out ∧ t.inp = s.inp

theorem Transforms.nil (m : Memory) : Transforms [] m m :=
  fun s hb hm => ⟨s, rfl, hb, hm, rfl, rfl⟩

theorem Transforms.append {a b : List Line} {m m' m'' : Memory} (h : Transforms a m m')
    (h' : Transforms b m' m'') : Transforms (a ++ b) m m'' := by
  intro s hb hm
  obtain ⟨t, hst, hbt, hmt, hot, hit⟩ := h s hb hm
  obtain ⟨u, htu, hbu, hmu, hou, hiu⟩ := h' t hbt hmt
  refine ⟨u, ?_, hbu, hmu, hou.trans hot, hiu.trans hit⟩
  simp [hst, htu]

/-! ### Code that goes on behind itself -/

namespace Image

variable {image : Image} {ρ : String → Nat} {p : Point} {a b lines : List Line}
  {m m' m'' : Memory}

/-- Wherever the lines stand in the image, they turn the memory `m` into `m'` and the run goes
on behind them. -/
def Turns (image : Image) (ρ : String → Nat) (lines : List Line) (m m' : Memory) : Prop :=
  ∀ pc out inp, image.Holds ρ pc lines →
    image.Leads ⟨pc, m, out, inp⟩ ⟨pc + codeSize lines, m', out, inp⟩

theorem Turns.of_transforms (h : Transforms lines m m') : image.Turns ρ lines m m' := by
  intro pc out inp hold s hs
  obtain ⟨t, hst, hb, hm, ho, hi⟩ := h s hs.bank hs.mem
  have hsteps := steps_of_performAll hold hst
  obtain rfl : s.pc = pc := hs.pc
  exact ⟨_, _, hsteps, ⟨rfl, hb, hm, ho.trans hs.out, hi.trans hs.inp⟩⟩

theorem Turns.nil (m : Memory) : image.Turns ρ [] m m := .of_transforms (.nil m)

theorem Turns.append (h : image.Turns ρ a m m') (h' : image.Turns ρ b m' m'') :
    image.Turns ρ (a ++ b) m m'' := by
  intro pc out inp hold
  obtain ⟨ha, hb⟩ := (holds_append ..).1 hold
  have hlead := (h _ out inp ha).trans (h' _ out inp hb)
  rwa [Nat.add_assoc, ← codeSize_append] at hlead

/-- Lines that are no code change nothing. -/
theorem Turns.comment (text : String) (h : image.Turns ρ lines m m') :
    image.Turns ρ (Code.comment text :: lines) m m' := h

theorem Turns.label (name : String) (h : image.Turns ρ lines m m') :
    image.Turns ρ (.label name :: lines) m m' := fun pc out inp hold => h pc out inp hold.2

theorem Turns.release (addr : Nat) (m : Memory) : image.Turns ρ [.release addr] m m :=
  .of_transforms fun s hb hm => ⟨s, rfl, hb, hm, rfl, rfl⟩

end Image

end NibblePascal
