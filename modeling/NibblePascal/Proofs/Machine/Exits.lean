import NibblePascal.Proofs.Machine.Confined
import NibblePascal.Proofs.Machine.Jumps
import NibblePascal.Proofs.Machine.Stretch

/-!
# Leaving a stretch of code

Lines may jump to labels that are not their own, the exits.  Such a label may stand behind the lines
or where they begin, as that of a loop does, and then a jump to it comes back.

* `image.Lingers lines exits n s t`: `n` steps in the lines that take no jump to an exit;
* `image.Quits ρ lines exits label s t`: the first jump to an exit is the one to `label`.

Two labels may have one position, so the position that a run comes to does not say which jump it
took.  Therefore the jumps are led elsewhere: `image.relabel σ` has the same instructions with other
targets.  Its runs are those of the image up to the first jump to an exit: `Lingers.of_relabel` and
`Lingers.relabel`.
-/

namespace NibblePascal

namespace Image

variable {image : Image} {ρ σ : String → Nat} {n pc : Nat} {s t u : State} {lines : List Line}
  {label label' : String} {exits : String → Prop}

theorem Spins.within (h : image.Spins lines s) (hruns : image.Runs lines n s u) :
    Within s.pc lines u.pc := by
  obtain ⟨v, hv⟩ := h (n + 1)
  exact hv.inside n n.lt_succ_self u hruns.steps

/-! ### The first jump to an exit -/

/-- The next step takes a jump to the label. -/
def Jumps (image : Image) (label : String) (s : State) : Prop :=
  ∃ kind d, image.ops[s.pc]? = some ⟨.jump kind label, d⟩ ∧ kind.taken s.flags = true

/-- The first `n` steps from `s` execute instructions of the lines and take no jump to an exit. -/
structure Lingers (image : Image) (lines : List Line) (exits : String → Prop) (n : Nat)
    (s t : State) : Prop where
  runs : image.Runs lines n s t
  passes : ∀ k < n, ∀ u, image.steps k s = some u → ∀ x, exits x → ¬ image.Jumps x u

/-- The run from `s` keeps to the lines until its first jump to an exit, which is the one to the
label and leads to the state `t`. -/
def Quits (image : Image) (ρ : String → Nat) (lines : List Line) (exits : String → Prop)
    (label : String) (s t : State) : Prop :=
  ∃ n u kind, image.Lingers lines exits n s u ∧ Within s.pc lines u.pc
    ∧ image.ops[u.pc]? = some ⟨.jump kind label, ρ label⟩ ∧ kind.taken u.flags = true
    ∧ t = { u with pc := ρ label }

theorem Lingers.next (h : image.Lingers lines exits n s u) (hu : Within s.pc lines u.pc)
    (hpass : ∀ x, exits x → ¬ image.Jumps x u) (hstep : image.step? u = some t) :
    image.Lingers lines exits (n + 1) s t := by
  refine ⟨h.runs.next hu hstep, fun k hk v hv => ?_⟩
  obtain hlt | rfl := Nat.lt_succ_iff_lt_or_eq.1 hk
  · exact h.passes k hlt v hv
  · obtain rfl : u = v := Option.some.inj (h.runs.steps.symm.trans hv)
    exact hpass

theorem Jumps.unique (h : image.Jumps label s) (h' : image.Jumps label' s) : label = label' := by
  obtain ⟨kind, d, hop, -⟩ := h
  obtain ⟨kind', d', hop', -⟩ := h'
  obtain ⟨hjump, -⟩ := Op.mk.inj (Option.some.inj (hop.symm.trans hop'))
  exact (Instruction.jump.inj hjump).2

namespace Quits

/-- A run takes one jump to an exit first. -/
theorem unique (h : image.Quits ρ lines exits label s t) (h' : image.Quits ρ lines exits label' s u)
    (hl : exits label) (hl' : exits label') : label = label' := by
  obtain ⟨n, v, kind, hv, -, hop, htaken, -⟩ := h
  obtain ⟨n', v', kind', hv', -, hop', htaken', -⟩ := h'
  have hjump : image.Jumps label v := ⟨kind, _, hop, htaken⟩
  have hjump' : image.Jumps label' v' := ⟨kind', _, hop', htaken'⟩
  obtain hlt | rfl | hlt := Nat.lt_trichotomy n n'
  · exact absurd hjump (hv'.passes n hlt v hv.runs.steps label hl)
  · obtain rfl : v = v' := Option.some.inj (hv.runs.steps.symm.trans hv'.runs.steps)
    exact hjump.unique hjump'
  · exact absurd hjump' (hv.passes n' hlt v' hv'.runs.steps label' hl')

/-- Before its first jump to an exit, a run does not come to the end of the lines. -/
theorem within (h : image.Quits ρ lines exits label s t) (hl : exits label)
    (hu : image.Lingers lines exits n s u) : Within s.pc lines u.pc := by
  obtain ⟨k, v, kind, hv, hin, hop, htaken, -⟩ := h
  obtain hlt | rfl | hlt := Nat.lt_trichotomy n k
  · exact hv.runs.inside n hlt u hu.runs.steps
  · obtain rfl : u = v := Option.some.inj (hu.runs.steps.symm.trans hv.runs.steps)
    exact hin
  · exact absurd ⟨kind, _, hop, htaken⟩ (hu.passes k hlt v hv.runs.steps label hl)

/-- It takes that jump at some time. -/
theorem not_lingers (h : image.Quits ρ lines exits label s t) (hl : exits label) :
    ¬ ∀ n, ∃ u, image.Lingers lines exits n s u := by
  intro hall
  obtain ⟨n, v, kind, hv, -, hop, htaken, -⟩ := h
  obtain ⟨u, hu⟩ := hall (n + 1)
  exact hu.passes n n.lt_succ_self v hv.runs.steps label hl ⟨kind, _, hop, htaken⟩

end Quits

/-! ### Jumps led elsewhere -/

/-- The same instructions, with the jumps led to where `σ` says. -/
def relabel (image : Image) (σ : String → Nat) : Image :=
  ⟨image.ops.map fun op => ⟨op.inst, destination σ op.inst⟩⟩

theorem getElem?_relabel (image : Image) (σ : String → Nat) (k : Nat) :
    (image.relabel σ).ops[k]? = (image.ops[k]?).map fun op => ⟨op.inst, destination σ op.inst⟩ :=
  Array.getElem?_map

theorem Holds.relabel (h : image.Holds ρ pc lines) (hσ : ∀ x ∈ labelNames lines, σ x = ρ x) :
    (image.relabel σ).Holds σ pc lines := by
  induction lines generalizing pc with
  | nil => exact holds_nil pc
  | cons l lines ih =>
    cases l with
    | inst i => exact ⟨by rw [getElem?_relabel, h.1]; rfl, ih h.2 hσ⟩
    | label name =>
      exact ⟨(hσ name (.head _)).trans h.1, ih h.2 fun x hx => hσ x (.tail _ hx)⟩
    | comment | release | endProc | raw => exact ih h hσ

/-- The positions of labels, but with two of them led to places of their own behind `pos`. -/
def aside (ρ : String → Nat) (yes no : String) (pos : Nat) (x : String) : Nat :=
  if x = yes then pos + 1 else if x = no then pos + 2 else ρ x

section Aside

variable {yes no x y : String} {pos : Nat}

theorem lt_aside (hx : x = yes ∨ x = no) : pos < aside ρ yes no pos x := by
  unfold aside
  split
  · omega
  · rw [if_pos (hx.resolve_left ‹_›)]
    omega

theorem aside_inj (hx : x = yes ∨ x = no) (hy : y = yes ∨ y = no)
    (h : aside ρ yes no pos x = aside ρ yes no pos y) : x = y := by
  by_cases hne : yes = no
  · rcases hx with rfl | rfl <;> rcases hy with rfl | rfl <;> simp_all
  · rcases hx with rfl | rfl <;> rcases hy with rfl | rfl <;> simp_all [aside, Ne.symm hne]

theorem aside_of_ne (hyes : x ≠ yes) (hno : x ≠ no) : aside ρ yes no pos x = ρ x := by
  rw [aside, if_neg hyes, if_neg hno]

theorem aside_of_mem (hnew : ∀ x, x = yes ∨ x = no → x ∉ labelNames lines)
    (hx : x ∈ labelNames lines) : aside ρ yes no pos x = ρ x :=
  aside_of_ne (fun he => hnew x (.inl he) hx) (fun he => hnew x (.inr he) hx)

theorem not_within_aside (hx : x = yes ∨ x = no) :
    ¬ Within pc lines (aside ρ yes no (pc + codeSize lines) x) :=
  fun hin => absurd (lt_aside hx) hin.2.le.not_gt

end Aside

/-- A step is the same with the jumps led elsewhere, unless it takes one of them. -/
theorem step?_relabel {i : Instruction} (hop : image.ops[s.pc]? = some ⟨i, destination ρ i⟩)
    (hsame : ∀ kind x, i = .jump kind x → kind.taken s.flags = true → σ x = ρ x) :
    (image.relabel σ).step? s = image.step? s := by
  have hop' : (image.relabel σ).ops[s.pc]? = some ⟨i, destination σ i⟩ := by
    rw [getElem?_relabel, hop]
    rfl
  cases i with
  | jump kind x =>
    rw [step?_jump hop', step?_jump hop]
    by_cases htaken : kind.taken s.flags = true
    · simp [htaken, destination, hsame kind x rfl htaken]
    · simp [htaken]
  | _ => simp only [step?, hop, hop', destination]

section Relabel

variable (hold : image.Holds ρ s.pc lines)
  (hjumps : ∀ x ∈ jumpTargets lines, x ∈ labelNames lines ∨ exits x)

include hold hjumps

/-- A jump that is taken and is not to an exit is to a label of the lines. -/
theorem Holds.label_of_jumps (hin : Within s.pc lines u.pc)
    (hpass : ∀ x, exits x → ¬ image.Jumps x u) {kind : JumpKind} {d : Nat}
    (hop : image.ops[u.pc]? = some ⟨.jump kind label, d⟩) (htaken : kind.taken u.flags = true) :
    label ∈ labelNames lines := by
  obtain ⟨i, hi, hop'⟩ := hold.exists_inst_of_within hin
  obtain rfl : i = .jump kind label := (Op.mk.inj (Option.some.inj (hop'.symm.trans hop))).1
  have hx : label ∈ jumpTargets lines := List.mem_filterMap.2 ⟨.inst (.jump kind label), hi, rfl⟩
  exact (hjumps label hx).resolve_right fun hx => hpass label hx ⟨kind, d, hop, htaken⟩

/-- A run that takes no jump to an exit is in the lines or at their end. -/
theorem Lingers.pc_le (h : image.Lingers lines exits n s t) : t.pc ≤ s.pc + codeSize lines := by
  cases n with
  | zero =>
    obtain rfl := stays_zero.1 h.runs
    exact Nat.le_add_right ..
  | succ n =>
    obtain ⟨u, hu, hin, hstep⟩ := h.runs.last
    obtain ⟨i, hi, hop⟩ := hold.exists_inst_of_within hin
    obtain ⟨op, hop', he⟩ := exists_executed hstep
    obtain rfl : op = _ := Option.some.inj (hop'.symm.trans hop)
    obtain hnext | ⟨⟨kind, x, rfl⟩, -⟩ := he.pc
    · exact hnext.trans_le hin.2
    · rw [step?_jump hop, Option.some.injEq] at hstep
      subst hstep
      dsimp only
      split
      case isTrue htaken =>
        have hpass := h.passes n n.lt_succ_self u hu.steps
        exact (hold.label_le (hold.label_of_jumps hjumps hin hpass hop htaken)).2
      case isFalse => exact hin.2

variable (hσ : ∀ x ∈ labelNames lines, σ x = ρ x)

include hσ

theorem Holds.step?_relabel (hin : Within s.pc lines u.pc)
    (hpass : ∀ x, exits x → ¬ image.Jumps x u) : (image.relabel σ).step? u = image.step? u := by
  obtain ⟨i, -, hop⟩ := hold.exists_inst_of_within hin
  refine Image.step?_relabel hop fun kind x hjump htaken => hσ x ?_
  subst hjump
  exact hold.label_of_jumps hjumps hin hpass hop htaken

/-- A run with the labels of `exits` led out of the lines is a run of the image, up to the jump by
which it leaves. -/
theorem Lingers.of_relabel (hexits : ∀ x, exits x → ¬ Within s.pc lines (σ x))
    (h : (image.relabel σ).Runs lines n s t) :
    image.Lingers lines exits n s t
      ∨ ∃ x u, exits x ∧ image.Quits ρ lines exits x s u ∧ t = { u with pc := σ x } := by
  induction n generalizing t with
  | zero =>
    obtain rfl := stays_zero.1 h
    exact .inl ⟨stays_zero.2 rfl, fun k hk => absurd hk (Nat.not_lt_zero k)⟩
  | succ n ih =>
    obtain ⟨v, hv, hin, hstep⟩ := h.last
    obtain hlingers | ⟨x, w, hx, -, rfl⟩ := ih hv
    · by_cases hjump : ∃ x, exits x ∧ image.Jumps x v
      · obtain ⟨x, hx, kind, d, hop', htaken⟩ := hjump
        obtain ⟨i, -, hop⟩ := hold.exists_inst_of_within hin
        obtain rfl : i = .jump kind x := (Op.mk.inj (Option.some.inj (hop.symm.trans hop'))).1
        refine .inr ⟨x, _, hx, ⟨n, v, kind, hlingers, hin, hop, htaken, rfl⟩, ?_⟩
        have hled : (image.relabel σ).ops[v.pc]? = some ⟨.jump kind x, σ x⟩ := by
          rw [getElem?_relabel, hop]
          rfl
        rw [step?_jump hled, if_pos htaken] at hstep
        exact (Option.some.inj hstep).symm
      · have hpass : ∀ x, exits x → ¬ image.Jumps x v := fun x hx hj => hjump ⟨x, hx, hj⟩
        rw [hold.step?_relabel hjumps hσ hin hpass] at hstep
        exact .inl (hlingers.next hin hpass hstep)
    · exact absurd hin (hexits x hx)

/-- A run that takes no jump to an exit is the same with the exits led elsewhere. -/
theorem Lingers.relabel (h : image.Lingers lines exits n s t) :
    (image.relabel σ).Runs lines n s t := by
  induction n generalizing t with
  | zero => exact stays_zero.2 (stays_zero.1 h.runs)
  | succ n ih =>
    obtain ⟨v, hv, hin, hstep⟩ := h.runs.last
    refine (ih ⟨hv, fun k hk => h.passes k (hk.trans n.lt_succ_self)⟩).next hin ?_
    rw [hold.step?_relabel hjumps hσ hin (h.passes n n.lt_succ_self v hv.steps)]
    exact hstep

end Relabel

/-- The label of an outcome is one of the two. -/
theorem label_of_outcome (b : Bool) (yes no : String) :
    (if b then yes else no) = yes ∨ (if b then yes else no) = no := by
  cases b <;> simp

/-- Lines that come to one of two labels, wherever they stand, come to it by the first jump to one
of the two. -/
theorem Quits.of_advances {yes no : String} {P : Memory → Prop} (hold : image.Holds ρ s.pc lines)
    (hjumps : ∀ x ∈ jumpTargets lines, x ∈ labelNames lines ∨ x = yes ∨ x = no)
    (hnew : ∀ x, x = yes ∨ x = no → x ∉ labelNames lines) (hlabel : label = yes ∨ label = no)
    (hb : s.bank = 0)
    (h : ∀ (image : Image) (σ : String → Nat), image.Holds σ s.pc lines →
      ∃ m, P m ∧ image.Advances s.point ⟨σ label, m, s.out, s.inp⟩) :
    ∃ t, image.Quits ρ lines (fun x => x = yes ∨ x = no) label s t
      ∧ t.bank = 0 ∧ P t.mem ∧ t.out = s.out ∧ t.inp = s.inp := by
  -- The two labels are led to positions of their own, so the end of a run tells by which it left.
  let σ := aside ρ yes no (s.pc + codeSize lines)
  have hσ : ∀ x ∈ labelNames lines, σ x = ρ x := fun x hx => aside_of_mem hnew hx
  obtain ⟨m, hm, hadvances⟩ := h _ σ (hold.relabel hσ).alone
  obtain ⟨n, t, ht, hpc, hbank, rfl, hout, hinp⟩ := hadvances s ⟨rfl, hb, rfl, rfl, rfl⟩
  obtain hlingers | ⟨x, u, hx, hquits, rfl⟩ :=
    Lingers.of_relabel hold hjumps hσ (fun x hx => not_within_aside hx) (runs_iff.2 ht)
  · exact absurd (lt_aside hlabel) (hpc ▸ hlingers.pc_le hold hjumps).not_gt
  · obtain rfl : x = label := aside_inj hx hlabel hpc
    exact ⟨u, hquits, hbank, hm, hout, hinp⟩

end Image

end NibblePascal
