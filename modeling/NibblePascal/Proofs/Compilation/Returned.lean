import NibblePascal.Proofs.Compilation.Closed
import NibblePascal.Proofs.Generation.Origins
import NibblePascal.Proofs.Simulation.Calls

/-!
# Accepted programs return where they were called

There is no stack, and yet in a program whose procedures do not reach themselves every return leads
behind the last call that is open, and no procedure is entered but by a call.
-/

namespace NibblePascal

/-- The lines of a procedure that is called: its label, its statements and the code that returns. -/
def LaidOut (lines : List Line) (q : String) : Prop :=
  ∃ before body after selector,
    lines = before ++ .label (Gen.procedureLabel q) :: (body
      ++ (Code.returnDispatch selector (returnLabels q lines) ++ .endProc q :: after))
    ∧ bodyStart lines q = codeSize before
    ∧ dispatchStart lines q = codeSize (before ++ body)
    ∧ bodyEnd lines q = codeSize (before ++ (body
      ++ Code.returnDispatch selector (returnLabels q lines)))

/-- Calls and returns match up to the state `s`, which a run reaches after `n` steps. -/
structure Image.Matches (image : Image) (lines : List Line) (start : State) (n : Nat) (s : State) :
    Prop where
  /-- The run is in a procedure when the last open call is one of it, and only then. -/
  inside : ∀ q ∈ procedureNames lines, InBody lines q s.pc ↔
    ∃ call rest, image.openCalls lines start n = call :: rest ∧ call.procedure = q
  /-- A return stays in its dispatch until it comes to the return label of the last open call of
  the procedure. -/
  returns : ∀ q ∈ procedureNames lines, InDispatch lines q s.pc → ∃ call,
    (image.openCalls lines start n).find? (·.procedure == q) = some call
    ∧ (∃ ret ∈ returnLabels q lines, labelMap lines ret = call.back)
    ∧ ∃ k t, image.steps (k + 1) s = some t ∧ t.pc = call.back
      ∧ ∀ j ≤ k, ∃ u, image.steps j s = some u ∧ InDispatch lines q u.pc
  /-- A step into a procedure is the jump of a call, or a return behind an open call in it. -/
  enters : ∀ t, image.step? s = some t → ∀ q ∈ procedureNames lines,
    ¬ InBody lines q s.pc → InBody lines q t.pc →
    (t.pc = bodyStart lines q
        ∧ ∃ d, image.ops[s.pc]? = some ⟨.jump .jmp (Gen.procedureLabel q), d⟩)
      ∨ ∃ call rest, image.openCalls lines start n = call :: rest
        ∧ InDispatch lines call.procedure s.pc ∧ t.pc = call.back

namespace Plan

variable {P : Plan} {T : Territory} {graph : List (Option String × String)} {image : Image}

/-- A procedure with calls is laid out as it should. -/
theorem Loaded.laidOut (hl : P.Loaded image) (hs : P.Sound T graph) {q : String}
    (hq : q ∈ P.procedures) (hreturns : P.returns q ≠ []) : LaidOut P.lines q := by
  obtain ⟨r, hr, hname⟩ := mem_procedures.1 hq
  obtain ⟨before, after, hlines, hmark, hstart⟩ := hl.exists_lines hs hr hname
  have hfinish : P.expand (r.body ++ [.finish q]) =
      P.expand r.body ++ Code.returnDispatch (P.selector q) (P.returns q) := by
    rw [expand_append]
    congr 1
    show (Piece.finish q).expand P.selector P.returns ++ [] = _
    rw [List.append_nil, Piece.expand, if_neg (by simpa using hreturns)]
  have hplace : P.place r r.body = codeSize (before ++ P.expand r.body) := by
    rw [codeSize_append, ← hstart]
    rfl
  refine ⟨before, P.expand r.body, after, P.selector q, ?_, ?_, ?_, ?_⟩
  · rw [hs.returnLabels_eq]
    rw [hfinish, List.append_assoc] at hlines
    exact hlines
  · rw [P.bodyStart_eq hname, hstart]
  · rw [hl.dispatchStart_eq hs hr hname hreturns, hplace]
  · rw [hl.bodyEnd_eq hs hr hname, P.stop_eq hname, hplace, hs.returnLabels_eq, Piece.expand,
      if_neg (by simpa using hreturns), ← List.append_assoc,
      codeSize_append _ (Code.returnDispatch _ _)]

/-- Calls and returns match along every run. -/
theorem matches_of_steps (hl : P.Loaded image) (hs : P.Sound T graph)
    (hac : ∀ p, ¬ CanReach graph p p) {m : Memory} (hm : m.Nibbles) {inp : Vector Nat 16}
    (hi : ∀ x ∈ inp, x < 16) {n : Nat} {s : State}
    (hsteps : image.steps n { mem := m, inp := inp } = some s) :
    image.Matches P.lines { mem := m, inp := inp } n s := by
  obtain ⟨hd, hstage⟩ := stage_of_steps hl hs hac hm hi hsteps
  refine ⟨fun q hq => ?_, fun q hq hpos => ?_, fun t hstep q hq hout hin => ?_⟩
  · exact (hstage.inBody_iff hl hs (hs.mem_procedureNames_iff.1 hq)).trans caller_eq_some
  · obtain ⟨call, rest, hcalls, hproc, ⟨ret, hret, hback⟩, hrun⟩ :=
      hstage.of_inDispatch hl hs (hs.mem_procedureNames_iff.1 hq) hpos
    refine ⟨call, ?_, ⟨ret, (hs.returnLabels_eq q).symm ▸ hret, hback⟩, hrun⟩
    rw [hcalls, List.find?_cons_of_pos (by simp [hproc])]
  · have hq' := hs.mem_procedureNames_iff.1 hq
    obtain ⟨hstage', hmove⟩ := hstage.step hl hs hac hd hstep
    -- Afterwards the last open call is one of `q`, and before it was not.
    have hcaller := (hstage'.inBody_iff hl hs hq').1 hin
    generalize image.callsAfter P.lines s t _ = calls at hcaller hmove
    cases hmove with
    | stay => exact absurd ((hstage.inBody_iff hl hs hq').2 hcaller) hout
    | opened hp hop hpc =>
      obtain rfl := Option.some.inj hcaller
      exact .inl ⟨hpc, _, hop⟩
    | closed hcalls hp hpos hpc => exact .inr ⟨_, _, hcalls, hpos, hpc⟩

end Plan

variable {files : Files} {o : Options} {name text : String} {p : Program} {c : Compilation}

/-- The compiled lines follow the plan `P`, whose rooms are left of those that generation filled; `o`
is the outline that generation ended with. -/
structure Program.Planned (p : Program) (c : Compilation) (o : Outline) (rooms : List Room) (P : Plan) :
    Prop where
  tidy : o.Tidy
  selective : o.Selective
  memory : c.memory = o.stock.memory
  stem : Room.Stem (p.block.calls none) o rooms p.Enters
  sound : P.Sound o.grounds (p.block.calls none)
  thins : List.Forall₂ Room.Thins P.rooms rooms
  procedures : ∀ q, q ∈ P.procedures ↔ q ∈ p.block.procedures
  lines : c.lines = P.lines

/-- Accepted code follows a plan, tidied or not. -/
theorem Accepts.exists_planned (h : Accepts files o name text p c) (hp : p.block.asmFree = true) :
    ∃ outline rooms P, p.Planned c outline rooms P := by
  obtain ⟨g, hgen, -, hmemory, hlines⟩ := h.generated
  have hfit := h.arraysFit
  obtain ⟨code, outline, rooms, hcode, heq, hmem, hrooms, hstem⟩ := Program.exists_origins hgen hp hfit
  rw [heq] at hlines
  rw [hmem] at hmemory
  by_cases ho : o.optimize = true
  · obtain ⟨P, hsound, hthins, hP⟩ := hcode.exists_plan_tidy hfit hrooms
    rw [if_pos ho, hP] at hlines
    exact ⟨outline, rooms, P, hcode.isTidy hfit, hcode.isSelective hfit, hmemory, hstem, hsound, hthins,
      hcode.mem_procedures_iff hfit hrooms hthins, hlines⟩
  · obtain ⟨P, hsound, hthins, hP⟩ := hcode.exists_plan hfit hrooms
    rw [if_neg ho, hP] at hlines
    exact ⟨outline, rooms, P, hcode.isTidy hfit, hcode.isSelective hfit, hmemory, hstem, hsound, hthins,
      hcode.mem_procedures_iff hfit hrooms hthins, hlines⟩

/-- So it follows a sound plan. -/
theorem Accepts.exists_plan (h : Accepts files o name text p c) (hp : p.block.asmFree = true) :
    ∃ (P : Plan) (T : Territory), P.Sound T (p.block.calls none)
      ∧ (∀ q, q ∈ P.procedures ↔ q ∈ p.block.procedures) ∧ c.lines = P.lines := by
  obtain ⟨outline, rooms, P, hplanned⟩ := h.exists_planned hp
  exact ⟨P, _, hplanned.sound, hplanned.procedures, hplanned.lines⟩

/-- In a run of an accepted program whose procedures do not reach themselves, however long and from
any memory and inputs, every return leads to the return label of the last open call of the
procedure, and procedures are entered by calls only. -/
theorem returns_match_calls (h : Accepts files o name text p c) (hp : p.block.asmFree = true)
    (hac : p.block.Acyclic) {m : Memory} (hm : m.Nibbles) {inp : Vector Nat 16}
    (hi : ∀ x ∈ inp, x < 16) :
    (∀ q, q ∈ procedureNames c.lines ↔ q ∈ p.block.procedures)
      ∧ (∀ q ∈ procedureNames c.lines, returnLabels q c.lines ≠ [] → LaidOut c.lines q)
      ∧ ∃ image, Image.ofLines? c.lines = some image ∧ ∀ n s,
        image.steps n { mem := m, inp := inp } = some s →
          image.Matches c.lines { mem := m, inp := inp } n s := by
  obtain ⟨image, himage, hholds, hend⟩ := (h.closed hp).exists_image
  obtain ⟨P, T, hs, hmem, hlines⟩ := h.exists_plan hp
  rw [hlines] at himage hholds hend ⊢
  have hl : P.Loaded image := ⟨hholds, hend⟩
  refine ⟨fun q => hs.mem_procedureNames_iff.trans (hmem q), fun q hq hreturns => ?_, image, himage,
    fun n s hsteps => Plan.matches_of_steps hl hs hac hm hi hsteps⟩
  rw [hs.returnLabels_eq] at hreturns
  exact hl.laidOut hs (hs.mem_procedureNames_iff.1 hq) hreturns

/-- A procedure that is called from three places, two of them in another procedure. -/
def nestedText : String :=
  "var n: nibble;\nprocedure p;\nbegin\n  inc n\nend;\n"
    ++ "procedure q;\nbegin\n  call p;\n  call p\nend;\n"
    ++ "begin\n  call q;\n  call p;\n  call q\nend.\n"

theorem returns_match_calls_nested : ∃ p c, Accepts {} {} "nested" nestedText p c
    ∧ p.block.asmFree = true ∧ p.block.Acyclic ∧ Memory.blank.Nibbles
    ∧ (∀ x ∈ Vector.replicate 16 7, x < 16)
    ∧ (∀ q, q ∈ procedureNames c.lines ↔ q ∈ p.block.procedures)
    ∧ (∀ q ∈ procedureNames c.lines, returnLabels q c.lines ≠ [] → LaidOut c.lines q)
    ∧ ∃ image, Image.ofLines? c.lines = some image ∧ ∀ n s,
      image.steps n { mem := Memory.blank, inp := Vector.replicate 16 7 } = some s →
        image.Matches c.lines { mem := Memory.blank, inp := Vector.replicate 16 7 } n s := by
  have haccepted : isAccepted {} {} "nested" nestedText (fun p => p.block.asmFree
      && p.block.calls none ==
        [(some "q", "p"), (some "q", "p"), (none, "q"), (none, "p"), (none, "q")]) = true := by
    decide +kernel
  obtain ⟨p, c, h, htest⟩ := exists_accepts_of_isAccepted haccepted
  obtain ⟨hp, hcalls⟩ := Bool.and_eq_true_iff.1 htest
  have hac : p.block.Acyclic := by
    refine Block.acyclic_of_rank (fun name => if name = "q" then 1 else 0) ?_
    intro caller callee hcall
    rw [eq_of_beq hcalls] at hcall
    simp only [List.mem_cons, Prod.mk.injEq, Option.some.injEq, reduceCtorEq, false_and,
      List.not_mem_nil, or_false, or_self] at hcall
    rw [hcall.1, hcall.2]
    decide
  have hinp : ∀ x ∈ Vector.replicate 16 7, x < 16 := fun x hx => by
    rw [Vector.eq_of_mem_replicate hx]
    decide
  exact ⟨p, c, h, hp, hac, Memory.nibbles_blank, hinp,
    returns_match_calls h hp hac Memory.nibbles_blank hinp⟩

end NibblePascal
