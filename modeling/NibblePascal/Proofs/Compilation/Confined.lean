import NibblePascal.Proofs.Compilation.Closed
import NibblePascal.Proofs.Generation.Guarded
import NibblePascal.Proofs.Machine.Confined

/-!
# Accepted programs stay in their own memory

Whatever the memory and the inputs at the start, a run of an accepted program without inline
assembly touches the scalars that were given out for it in bank 0, and the slots of its arrays in
their banks.
-/

namespace NibblePascal

/-- What an instruction may touch in a state: the scalars given out, in bank 0, and the slots of
the arrays, in their banks.  A jump stands in bank 0. -/
def Allocator.Permits (a : Allocator) (s : State) : Instruction → Prop
  | .lda (.mem x) | .sta (.mem x) =>
      s.bank = 0 ∧ s.direct x = x ∧ x < a.free ∧ a.free ≤ scalarSpace
        ∧ ∃ v ∈ a.vars.toList, v.Covers x
  | .lda (.banked x) | .sta (.banked x) =>
      ∃ r ∈ a.arrays.toList, s.bank = r.bank ∧ r.base ≤ s.banked x ∧ s.banked x < r.base + slotSize
  | .jump _ _ => s.bank = 0
  | _ => True

/-- A state of a run that began with the memory `m`: all cells hold digits, what comes next is
permitted, bank 0 is selected at a label, and no cell but those of scalars and arrays has
changed. -/
structure Compilation.Confined (c : Compilation) (image : Image) (m : Memory) (s : State) : Prop where
  digits : s.mem.Nibbles
  access : ∀ op, image.ops[s.pc]? = some op → c.memory.Permits s op.inst
  labels : ∀ name, (name, s.pc) ∈ Image.labels 0 c.lines → s.bank = 0
  kept : ∀ addr, s.mem.read addr ≠ m.read addr → (∃ v ∈ c.memory.vars.toList, v.Covers addr)
    ∨ ∃ r ∈ c.memory.arrays.toList, r.base ≤ addr ∧ addr < r.base + slotSize

theorem Allocator.InBounds.placed {a : Allocator} (h : a.InBounds) : a.territory.Placed :=
  ⟨fun v hv => (h.scalar v hv).trans h.free_le, fun r hr => (h.array r hr).1⟩

/-- What is allowed by the place in the code is permitted. -/
theorem Allocator.InBounds.permits {a : Allocator} (h : a.InBounds) {s : State} {i : Instruction}
    (hs : s.Digits) (hi : a.territory.Allows s.bank (.inst i)) : a.Permits s i := by
  have hscalar : ∀ {x}, s.bank = 0 ∧ a.territory.Owns x → s.bank = 0 ∧ s.direct x = x ∧ x < a.free
      ∧ a.free ≤ scalarSpace ∧ ∃ v ∈ a.vars.toList, v.Covers x := by
    rintro x ⟨hbank, v, hv, hc⟩
    exact ⟨hbank, h.placed.direct_eq hbank ⟨v, hv, hc⟩, hc.2.trans_le (h.scalar v hv), h.free_le,
      v, hv, hc⟩
  have harray : ∀ {x}, (∃ r, a.territory.array r ∧ r.bank = s.bank ∧ r.addr = x) →
      ∃ r ∈ a.arrays.toList, s.bank = r.bank ∧ r.base ≤ s.banked x
        ∧ s.banked x < r.base + slotSize := by
    rintro x ⟨r, hr, hbank, rfl⟩
    exact ⟨r, hr, hbank.symm, h.placed.banked_mem hs hr hbank⟩
  cases i with
  | lda source =>
    cases source with
    | imm => trivial
    | mem x => exact hscalar hi
    | banked x => exact harray hi
  | sta dest =>
    cases dest with
    | mem x => exact hscalar hi
    | banked x => exact harray hi
  | jump kind target => exact hi
  | _ => trivial

variable {files : Files} {o : Options} {name text : String} {p : Program} {c : Compilation}

/-- Accepted code is guarded, tidied or not. -/
theorem Accepts.guarded (h : Accepts files o name text p c) (hp : p.block.asmFree = true) :
    c.memory.InBounds ∧ c.memory.territory.Keeps c.lines := by
  obtain ⟨code, outline, hcode, hmemory, hlines⟩ := h.coded hp
  have hhoused := hcode.block.keeps Outline.housed_invariant h.arraysFit Outline.housed_start
  have hkeeps := hcode.guarded h.arraysFit
  rw [hmemory, hlines]
  refine ⟨hhoused.bounds, ?_⟩
  split
  · exact hkeeps.tidied (tidied_tidy _)
  · exact hkeeps

/-- A run of an accepted program, however long and from any memory and inputs, stays in the memory
that was given out for the program. -/
theorem accepted_runs_confined (h : Accepts files o name text p c) (hp : p.block.asmFree = true)
    {m : Memory} (hm : m.Nibbles) {inp : Vector Nat 16} (hi : ∀ x ∈ inp, x < 16) :
    ∃ image, Image.ofLines? c.lines = some image ∧ ∀ n s,
      image.steps n { mem := m, inp := inp } = some s → c.Confined image m s := by
  obtain ⟨hbounds, hkeeps⟩ := h.guarded hp
  have hclosed := h.closed hp
  obtain ⟨image, himage, hholds, hend⟩ := hclosed.exists_image
  have hloads : c.memory.territory.Loads image (Image.labelMap c.lines) c.lines :=
    ⟨hbounds.placed, hkeeps, hclosed, hholds, hend⟩
  refine ⟨image, himage, fun n s hsteps => ?_⟩
  have hs := (Territory.Confines.start hm hi c.lines).steps hloads hsteps
  refine ⟨hs.digits.mem, fun op hop => ?_, fun name hlabel => hs.bank_of_label hloads hlabel,
    fun addr hne => ?_⟩
  · obtain ⟨-, i, -, -, -, -, hallows, rfl⟩ := hs.next_inst hloads hop
    exact hbounds.permits hs.digits hallows
  · by_contra hout
    exact hne (hs.kept addr hout)

/-- A procedure that calls itself, and an array with an index of any size. -/
def walkText : String :=
  "var a: byte[8];\n  i: word;\nprocedure p;\nbegin\n  a[i] := a[i + 1];\n  inc i;\n  call p\nend;\n"
    ++ "begin\n  inp i, 3;\n  call p\nend.\n"

theorem accepted_runs_confined_walk : ∃ p c, Accepts {} {} "walk" walkText p c
    ∧ p.block.asmFree = true ∧ Memory.blank.Nibbles
    ∧ (∀ x ∈ Vector.replicate 16 15, x < 16)
    ∧ ∃ image, Image.ofLines? c.lines = some image ∧ ∀ n s,
      image.steps n { inp := Vector.replicate 16 15 } = some s →
        c.Confined image Memory.blank s := by
  have haccepted : isAccepted {} {} "walk" walkText (·.block.asmFree) = true := by
    decide +kernel
  have hinp : ∀ x ∈ Vector.replicate 16 15, x < 16 := fun x hx => by
    rw [Vector.eq_of_mem_replicate hx]
    decide
  obtain ⟨p, c, h, hp⟩ := exists_accepts_of_isAccepted haccepted
  exact ⟨p, c, h, hp, Memory.nibbles_blank, hinp,
    accepted_runs_confined h hp Memory.nibbles_blank hinp⟩

end NibblePascal
