import NibblePascal.Proofs.Fragments.Return
import NibblePascal.Proofs.Machine.Loaded

/-!
# Calls and returns along a run

A run of a program is followed from stage to stage: it walks through a room, sets up a call, or
returns.  The open calls are a stack in all but name: the room that the run is in is that of the
last open call, each open call stands in the room of the call before it, and its number is in the
selector of its procedure.  No call can spoil the selector of another open one, since a procedure
that does not reach itself is not open when it is called.

* `P.Awaits m calls`: the open calls and the selectors in the memory `m`;
* `P.Walks T calls s`: the state `s` is in the room of the last open call;
* `P.Stage T image calls s`: what the run does next; `Plan.Walks.stage` finds it out, and
  `Plan.Stage.step` goes one step on;
* `Plan.stage_of_steps`: every run is at some stage, with the open calls that can be read off it.
-/

namespace NibblePascal

/-- The procedure that a run with these open calls is in; none for the program itself. -/
def caller (calls : List OpenCall) : Option String := calls.head?.map OpenCall.procedure

@[simp] theorem caller_nil : caller [] = none := rfl

@[simp] theorem caller_cons (c : OpenCall) (calls : List OpenCall) :
    caller (c :: calls) = some c.procedure := rfl

theorem caller_eq_some {calls : List OpenCall} {p : String} :
    caller calls = some p ↔ ∃ c rest, calls = c :: rest ∧ c.procedure = p := by
  cases calls <;> simp

theorem eq_nil_of_caller {calls : List OpenCall} (h : caller calls = none) : calls = [] := by
  cases calls with
  | nil => rfl
  | cons c rest => cases h

/-- The code of a call sets its number, if there are several calls, and jumps. -/
theorem Image.exits_call {image : Image} {ρ : String → Nat} {selector : String → Var}
    {returns : String → List String} {p ret : String} {s : State}
    (hold : image.Holds ρ s.pc ((Piece.call p ret).expand selector returns))
    (hv : (selector p).Placed) (hb : s.bank = 0) (hlen : (returns p).length ≤ 16)
    (hret : ret ∈ returns p) :
    image.Exits s.pc (s.pc + codeSize ((Piece.call p ret).expand selector returns))
      (fun pc i => pc + 1 = s.pc + codeSize ((Piece.call p ret).expand selector returns)
        ∧ i = .jump .jmp (Gen.procedureLabel p))
      (ρ (Gen.procedureLabel p))
      (fun t => t.bank = 0 ∧ (∀ addr, addr ≠ (selector p).addr → t.mem.read addr = s.mem.read addr)
        ∧ (1 < (returns p).length → t.mem.read (selector p).addr = (returns p).idxOf ret)) s := by
  rw [Piece.expand] at hold ⊢
  by_cases hmany : 1 < (returns p).length
  · rw [if_pos hmany] at hold ⊢
    have haddr : (selector p).addr < memorySize :=
      (Var.cell_lt hv (Var.cells_pos _)).trans (by decide)
    have hnumber : (returns p).idxOf ret % 16 = (returns p).idxOf ret :=
      Nat.mod_eq_of_lt ((List.idxOf_lt_length_of_mem hret).trans_le hlen)
    refine (exits_selectCall hold hv hb).mono ?_
    rintro t - ⟨htbank, htmem⟩
    rw [hnumber] at htmem
    rw [htmem]
    exact ⟨htbank, fun addr hne => Memory.read_write_of_ne _ _ hne.symm,
      fun _ => Memory.read_write_same _ _ haddr⟩
  · rw [if_neg hmany] at hold ⊢
    refine (exits_jump hold.1).mono ?_
    rintro t - ⟨htbank, htmem⟩
    rw [htmem]
    exact ⟨htbank.trans hb, fun _ _ => rfl, fun h => absurd h hmany⟩

namespace Plan

/-- An open call stands in the room of the procedure `name`, and its number is in the selector. -/
def Site (P : Plan) (m : Memory) (c : OpenCall) (name : Option String) : Prop :=
  ∃ r ∈ P.rooms, r.name = name ∧ ∃ a b ret, r.body = a ++ .call c.procedure ret :: b
    ∧ c.back = P.place r (a ++ [.call c.procedure ret])
    ∧ (1 < (P.returns c.procedure).length →
      m.read (P.selector c.procedure).addr = (P.returns c.procedure).idxOf ret)

/-- Each open call stands in the room of the call before it. -/
def Awaits (P : Plan) (m : Memory) : List OpenCall → Prop
  | [] => True
  | c :: calls => P.Site m c (caller calls) ∧ Awaits P m calls

/-- The run is somewhere in the room of the last open call. -/
structure Walks (P : Plan) (T : Territory) (calls : List OpenCall) (s : State) : Prop where
  inside : ∃ r ∈ P.rooms, r.name = caller calls ∧ ∃ a b, r.body = a ++ b ∧ s.pc = P.place r a
    ∧ T.Guards 0 (a.map Piece.plain) s.bank
  awaits : P.Awaits s.mem calls

/-- The run is on its way from the first line to `dest`, in the room of the program. -/
def Starts (P : Plan) (T : Territory) (image : Image) (dest : Nat) : State → Prop :=
  image.Exits 0 (codeSize P.head) (fun _ i => ∀ p, i ≠ .jump .jmp (Gen.procedureLabel p)) dest
    (P.Walks T [])

/-- The run is on its way into `p`, by the call that stands behind the pieces `a` of the room. -/
def Enters (P : Plan) (T : Territory) (image : Image) (calls : List OpenCall) (r : Room)
    (a : List Piece) (p ret : String) : State → Prop :=
  image.Exits (P.place r a) (P.place r (a ++ [.call p ret]))
    (fun pc i => pc + 1 = P.place r (a ++ [.call p ret])
      ∧ i = .jump .jmp (Gen.procedureLabel p))
    (bodyStart P.lines p) (P.Walks T (⟨p, P.place r (a ++ [.call p ret])⟩ :: calls))

/-- The run is on its way back from the room, to the return label of the call. -/
def Returns (P : Plan) (T : Territory) (image : Image) (calls : List OpenCall) (r : Room)
    (c : OpenCall) (ret : String) : State → Prop :=
  image.Exits (P.place r r.body) (P.stop r) (fun _ i => ∃ kind, i = .jump kind ret) c.back
    (P.Walks T calls)

/-- What a run does next: it starts, walks on, calls, returns, or has come to the end. -/
inductive Stage (P : Plan) (T : Territory) (image : Image) : List OpenCall → State → Prop
  | start {s : State} {dest : Nat} (h : P.Starts T image dest s) : Stage P T image [] s
  | walk {calls : List OpenCall} {s : State} {r : Room} {a b : List Piece} {i : Instruction}
      (hr : r ∈ P.rooms) (hname : r.name = caller calls)
      (hbody : r.body = a ++ .line (.inst i) :: b) (hpc : s.pc = P.place r a)
      (hguards : T.Guards 0 (a.map Piece.plain) s.bank) (hawaits : P.Awaits s.mem calls) :
      Stage P T image calls s
  | call {calls : List OpenCall} {s : State} {r : Room} {a b : List Piece} {p ret : String}
      (hr : r ∈ P.rooms) (hname : r.name = caller calls) (hbody : r.body = a ++ .call p ret :: b)
      (h : P.Enters T image calls r a p ret s) : Stage P T image calls s
  | back {c : OpenCall} {calls : List OpenCall} {s : State} {r : Room} {ret : String}
      (hr : r ∈ P.rooms) (hname : r.name = some c.procedure) (hret : ret ∈ P.returns c.procedure)
      (hback : Image.labelMap P.lines ret = c.back) (hne : caller calls ≠ some c.procedure)
      (h : P.Returns T image calls r c ret s) : Stage P T image (c :: calls) s
  | done {s : State} (hpc : s.pc = codeSize P.lines) : Stage P T image [] s

variable {P : Plan} {T : Territory} {graph : List (Option String × String)} {image : Image}
  {r : Room} {a b : List Piece} {p : String} {calls : List OpenCall} {c : OpenCall} {m m' : Memory}
  {s t : State}

/-! ### Open calls -/

/-- Only the selectors of the open calls count. -/
theorem Awaits.of_read_eq (h : P.Awaits m calls)
    (hread : ∀ c ∈ calls,
      m'.read (P.selector c.procedure).addr = m.read (P.selector c.procedure).addr) :
    P.Awaits m' calls := by
  induction calls with
  | nil => trivial
  | cons c calls ih =>
    obtain ⟨⟨r, hr, hname, a, b, ret, hbody, hback, hsel⟩, hrest⟩ := h
    refine ⟨⟨r, hr, hname, a, b, ret, hbody, hback, fun hlen => ?_⟩,
      ih hrest fun c hc => hread c (.tail _ hc)⟩
    rw [hread c (.head _)]
    exact hsel hlen

theorem Site.mem {name : Option String} (h : P.Site m c name) (hs : P.Sound T graph) :
    (name, c.procedure) ∈ graph ∧ c.procedure ∈ P.procedures := by
  obtain ⟨r, hr, rfl, a, b, ret, hbody, -, -⟩ := h
  exact hs.called r hr c.procedure ret (by simp [hbody])

theorem Awaits.mem_procedures (h : P.Awaits m calls) (hs : P.Sound T graph) (hc : c ∈ calls) :
    c.procedure ∈ P.procedures := by
  induction calls with
  | nil => cases hc
  | cons c' calls ih =>
    obtain rfl | hc := List.mem_cons.1 hc
    · exact (h.1.mem hs).2
    · exact ih h.2 hc

/-- The procedures of the open calls lead to all that is called next. -/
theorem Awaits.canReach (h : P.Awaits m calls) (hs : P.Sound T graph)
    (hp : (caller calls, p) ∈ graph) (hc : c ∈ calls) : CanReach graph c.procedure p := by
  induction calls generalizing p with
  | nil => cases hc
  | cons c' calls ih =>
    obtain rfl | hc := List.mem_cons.1 hc
    · exact .single hp
    · exact (ih h.2 (h.1.mem hs).1 hc).tail hp

theorem mem_returns_of_call (P : Plan) {ret : String} (hr : r ∈ P.rooms)
    (h : .call p ret ∈ r.body) : ret ∈ P.returns p :=
  Piece.mem_returns.2 (List.mem_flatMap.2 ⟨r, hr, Room.mem_pieces.2 (.inr (.inl h))⟩)

section Stages

variable {ret : String} (hl : P.Loaded image) (hs : P.Sound T graph)
  (hac : ∀ p, ¬ CanReach graph p p)
include hl hs hac

/-- A call leads into the procedure. -/
theorem enters_of_call (hr : r ∈ P.rooms) (hname : r.name = caller calls)
    (hbody : r.body = a ++ .call p ret :: b) (hpc : s.pc = P.place r a)
    (hguards : T.Guards 0 (a.map Piece.plain) s.bank) (hawaits : P.Awaits s.mem calls) :
    P.Enters T image calls r a p ret s := by
  have hcall : .call p ret ∈ r.body := by simp [hbody]
  obtain ⟨hgraph, hproc⟩ := hs.called r hr p ret hcall
  obtain ⟨callee, hcallee, hcalleeName⟩ := mem_procedures.1 hproc
  have hbank : s.bank = 0 := ((hs.neat r hr).guards_next hbody hguards).1
  have hhold : image.Holds (Image.labelMap P.lines) s.pc
      ((Piece.call p ret).expand P.selector P.returns) := by
    have hrest := hl.holds_place hr
      (show r.body ++ r.ending = a ++ .call p ret :: (b ++ r.ending) by simp [hbody])
    rw [← hpc] at hrest
    exact ((Image.holds_append ..).1 hrest).1
  have hsize : P.place r (a ++ [.call p ret]) =
      s.pc + codeSize ((Piece.call p ret).expand P.selector P.returns) := by
    rw [place_append, ← hpc]
    show _ + codeSize (_ ++ []) = _
    rw [List.append_nil]
  have hexits := Image.exits_call hhold (hs.selector p hproc).1 hbank (hs.limited p)
    (P.mem_returns_of_call hr hcall)
  rw [← hsize] at hexits
  rw [Enters, ← hpc]
  refine hexits.mono ?_
  rintro t htpc ⟨htbank, hkept, hsel⟩
  refine ⟨⟨callee, hcallee, hcalleeName, [], callee.body, rfl, ?_, htbank.symm⟩,
    ⟨r, hr, hname, a, b, ret, hbody, rfl, hsel⟩, hawaits.of_read_eq fun c hc => hkept _ ?_⟩
  · rw [htpc, ← P.bodyStart_eq hcalleeName]
    rfl
  · -- The procedure is not open yet, so the selectors of the open calls are other ones.
    refine hs.apart _ (hawaits.mem_procedures hs hc) _ hproc ?_
    rintro rfl
    exact hac _ (hawaits.canReach hs (hname ▸ hgraph) hc)

/-- A return leads behind the last open call. -/
theorem exists_returns (hr : r ∈ P.rooms) (hname : r.name = some c.procedure)
    (hpc : s.pc = P.place r r.body) (hbank : s.bank = 0) (hawaits : P.Awaits s.mem (c :: calls)) :
    ∃ ret ∈ P.returns c.procedure, Image.labelMap P.lines ret = c.back
      ∧ caller calls ≠ some c.procedure ∧ P.Returns T image calls r c ret s := by
  obtain ⟨⟨r', hr', hname', a, b, ret, hbody, hback, hsel⟩, hrest⟩ := hawaits
  have hcall : .call c.procedure ret ∈ r'.body := by simp [hbody]
  obtain ⟨hgraph, hproc⟩ := hs.called r' hr' c.procedure ret hcall
  have hret := P.mem_returns_of_call hr' hcall
  have hneat := hs.neat r' hr'
  -- The return label stands right behind the call.
  have hlabel : Image.labelMap P.lines ret = c.back := by
    obtain ⟨b', rfl⟩ := (hbody ▸ hneat.answered).of_append
    rw [hback]
    exact hl.labelMap_eq hr' (b := b') (by simp [hbody])
  refine ⟨ret, hret, hlabel, fun hcaller => ?_, ?_⟩
  · rw [hname', hcaller] at hgraph
    exact hac _ (.single hgraph)
  · have hstop := P.stop_eq hname
    have hhold : image.Holds (Image.labelMap P.lines) s.pc
        ((Piece.finish c.procedure).expand P.selector P.returns) := by
      have hending := hl.holds_place hr (show r.body ++ r.ending = r.body ++ r.ending from rfl)
      rw [← hpc, Room.ending, hname] at hending
      exact ((Image.holds_append ..).1 hending).1
    have hnonempty : ¬ (P.returns c.procedure).isEmpty = true := by
      rw [List.isEmpty_iff]
      exact List.ne_nil_of_mem hret
    rw [Piece.expand, if_neg hnonempty] at hstop hhold
    rw [Returns, hstop, ← hpc, ← hlabel]
    refine (Image.exits_returnDispatch hhold (hs.selector _ hproc).1 hbank (hs.limited _)
      (List.getElem?_idxOf hret) hsel).mono fun t htpc hsame => ?_
    -- A room has the bank 0 behind a call as before it, and so has the return.
    have hguards := (hneat.guards_next hbody (hneat.guards_zero hbody fun _ h => h)).2
    refine ⟨⟨r', hr', hname', a ++ [.call c.procedure ret], b, by simp [hbody], ?_, ?_⟩, ?_⟩
    · rw [htpc, hlabel, hback]
    · rw [hsame.bank, hbank]
      exact hguards
    · rw [hsame.mem]
      exact hrest

/-- What comes next in a room. -/
theorem Walks.stage (h : P.Walks T calls s) : P.Stage T image calls s := by
  obtain ⟨⟨r, hr, hname, a, b, hbody, hpc, hguards⟩, hawaits⟩ := h
  have hneat := hs.neat r hr
  -- Lines without code are passed over, so the induction is on the rest of the room.
  induction b generalizing a with
  | nil =>
    rw [List.append_nil] at hbody
    subst hbody
    cases hroom : r.name with
    | none =>
      obtain rfl := eq_nil_of_caller (hname.symm.trans hroom)
      exact .done (hpc.trans (hl.place_main hs hr hroom))
    | some p =>
      obtain ⟨c, rest, rfl, rfl⟩ := caller_eq_some.1 (hname.symm.trans hroom)
      have hbank : s.bank = 0 := hguards.unique hneat.guarded
      obtain ⟨ret, hret, hback, hne, hreturns⟩ :=
        exists_returns hl hs hac hr hroom hpc hbank hawaits
      exact .back hr hroom hret hback hne hreturns
  | cons piece b ih =>
    cases piece with
    | finish p => exact absurd (by simp [hbody]) (hneat.unfinished p)
    | call p ret =>
      exact .call hr hname hbody (enters_of_call hl hs hac hr hname hbody hpc hguards hawaits)
    | line l =>
      have hskip : codeSize [l] = 0 → (∀ bank, l.bankAfter bank = bank) →
          P.Stage T image calls s := by
        intro hsize hbank
        have hnext := (hneat.guards_next hbody hguards).2
        rw [Piece.plain, hbank] at hnext
        refine ih (a ++ [.line l]) (by simp [hbody]) ?_ hnext
        rw [place_append, hpc]
        show _ = _ + codeSize [l]
        rw [hsize, Nat.add_zero]
      cases l with
      | inst i => exact .walk hr hname hbody hpc hguards hawaits
      | label | comment | release | endProc | raw => exact hskip rfl fun _ => rfl

end Stages

/-- A run starts outside the rooms and comes to that of the program. -/
theorem stage_start (hl : P.Loaded image) (hs : P.Sound T graph) (m : Memory)
    (inp : Vector Nat 16) : P.Stage T image [] { mem := m, inp := inp } := by
  obtain ⟨procedures, body, hrooms⟩ := hs.main
  have hmain : ⟨none, body⟩ ∈ P.rooms := by simp [hrooms]
  have harrive : ∀ t : State, t.pc = P.place ⟨none, body⟩ [] → t.bank = 0 → P.Walks T [] t :=
    fun t hpc hbank => ⟨⟨_, hmain, rfl, [], body, rfl, hpc, hbank.symm⟩, trivial⟩
  have hhead : image.Holds (Image.labelMap P.lines) 0 P.head :=
    ((Image.holds_append ..).1 hl.holds).1
  suffices h : P.Starts T image (P.place ⟨none, body⟩ []) { mem := m, inp := inp } from .start h
  obtain heq | ⟨heq, body', hrooms'⟩ := hs.head
  · obtain ⟨t, hperform, hbank⟩ : ∃ t,
        ({ mem := m, inp := inp } : State).performAll Code.setup = some t ∧ t.bank = 0 :=
      ⟨_, rfl, rfl⟩
    rw [heq] at hhead
    obtain ⟨hsetup, hjump, -⟩ := (Image.holds_append ..).1 hhead
    refine Image.Exits.of_performAll hsetup le_rfl ?_ hperform ?_
    · rw [heq, codeSize_append]
      omega
    · refine .of_taken hjump rfl (Nat.zero_le _) ?_ (fun p hp => ?_) (harrive _ rfl hbank)
      · rw [heq, codeSize_append]
        simp
      · exact Gen.procedureLabel_ne_main p (Instruction.jump.inj hp).2.symm
  · -- Without procedures there is no jump, and the program follows right behind.
    obtain ⟨t, hperform, hbank⟩ : ∃ t,
        ({ mem := m, inp := inp } : State).performAll Code.setup.dropLast = some t ∧ t.bank = 0 :=
      ⟨_, rfl, rfl⟩
    have hsplit : Code.setup = Code.setup.dropLast ++ [.inst (.out 4)] := rfl
    have hplace : P.place ⟨none, body⟩ [] = 8 := by
      have hpieces := ((Image.holds_append ..).1 hl.holds).2
      rw [pieces, hrooms', heq] at hpieces
      exact hpieces.1
    rw [heq, hsplit] at hhead
    obtain ⟨hfirst, hout, -⟩ := (Image.holds_append ..).1 hhead
    refine Image.Exits.of_performAll hfirst le_rfl ?_ hperform ?_
    · rw [heq]
      decide
    · have hstep : image.step? { t with pc := 0 + codeSize Code.setup.dropLast } =
          some { t with pc := 8, out := t.out.set 4 t.acc } := by
        simp only [Image.step?, hout]
        rfl
      refine .leave (Nat.zero_le _) ?_ hout (fun p => by simp) hstep hplace.symm
        (harrive _ hplace.symm hbank)
      rw [heq]
      show 0 + codeSize Code.setup.dropLast < codeSize Code.setup
      decide

/-! ### One step -/

/-- What a step does to the open calls: it leaves them as they are, opens one by a jump into a
procedure, or returns behind the last one. -/
inductive Move (P : Plan) (image : Image) (s t : State) (calls : List OpenCall) :
    List OpenCall → Prop
  | stay : Move P image s t calls calls
  | opened {p : String} {d : Nat} (hp : p ∈ P.procedures)
      (hop : image.ops[s.pc]? = some ⟨.jump .jmp (Gen.procedureLabel p), d⟩)
      (hpc : t.pc = bodyStart P.lines p) : Move P image s t calls (⟨p, s.pc + 1⟩ :: calls)
  | closed {c : OpenCall} {rest : List OpenCall} (hcalls : calls = c :: rest)
      (hp : c.procedure ∈ P.procedures) (hs : InDispatch P.lines c.procedure s.pc)
      (hpc : t.pc = c.back) : Move P image s t calls rest

/-- Where no procedure returns, a step that calls none leaves the open calls as they are. -/
theorem callsAfter_eq (hs : P.Sound T graph) {op : Op} (hop : image.ops[s.pc]? = some op)
    (hcall : ∀ p, op.inst ≠ .jump .jmp (Gen.procedureLabel p))
    (hback : ∀ p ∈ P.procedures, InDispatch P.lines p s.pc → InDispatch P.lines p t.pc) :
    image.callsAfter P.lines s t calls = calls := by
  have hreturned : Image.returned? P.lines s t = none :=
    Image.returned?_eq_none fun p hp => hback p (hs.mem_procedureNames_iff.1 hp)
  rw [Image.callsAfter, Image.called?_eq_none hop hcall, hreturned]

section Steps

variable (hl : P.Loaded image) (hs : P.Sound T graph)
include hl hs

/-- An instruction of a room is no call. -/
theorem op_eq {i : Instruction} (hr : r ∈ P.rooms) (hbody : r.body = a ++ .line (.inst i) :: b)
    (hpc : s.pc = P.place r a) :
    image.ops[s.pc]? = some ⟨i, Image.destination (Image.labelMap P.lines) i⟩
      ∧ ∀ p, i ≠ .jump .jmp (Gen.procedureLabel p) := by
  have hneat := hs.neat r hr
  have hhold := hl.holds_place hr
    (show r.body ++ r.ending = a ++ .line (.inst i) :: (b ++ r.ending) by simp [hbody])
  rw [hpc]
  refine ⟨hhold.1, ?_⟩
  rintro p rfl
  obtain ⟨n, hn⟩ := hneat.labels _ (hneat.jumps .jmp (Gen.procedureLabel p) (by simp [hbody]))
  exact Gen.procedureLabel_ne_labelName p n hn

/-- An instruction of a room leads on in the room. -/
theorem walks_of_step {i : Instruction} (hd : s.Digits) (hr : r ∈ P.rooms)
    (hname : r.name = caller calls) (hbody : r.body = a ++ .line (.inst i) :: b)
    (hpc : s.pc = P.place r a) (hguards : T.Guards 0 (a.map Piece.plain) s.bank)
    (hawaits : P.Awaits s.mem calls) (hstep : image.step? s = some t) : P.Walks T calls t := by
  have hneat := hs.neat r hr
  obtain ⟨hallows, hnext⟩ := hneat.guards_next hbody hguards
  have hdigits : ({ s with pc := s.pc + 1 } : State).Digits :=
    ⟨hd.acc, hd.bl, hd.bh, hd.mem, hd.inp⟩
  obtain ⟨op, hop, he⟩ := Image.exists_executed hstep
  obtain rfl := Option.some.inj ((op_eq hl hs hr hbody hpc).1.symm.trans hop)
  -- What a room writes lies in its territory, and no selector does.
  have hawaits' : P.Awaits t.mem calls := by
    refine hawaits.of_read_eq fun c hc => he.read_eq fun hstored => ?_
    have hreaches := hs.placed.reaches_of_stored hdigits hallows hstored
    exact (hs.selector _ (hawaits.mem_procedures hs hc)).2 hreaches
  refine ⟨⟨r, hr, hname, ?_⟩, hawaits'⟩
  obtain hon | ⟨⟨kind, target, hi⟩, hjump⟩ := he.pc
  · refine ⟨a ++ [.line (.inst i)], b, by simp [hbody], ?_, ?_⟩
    · rw [hon, place_append, hpc]
      rfl
    · rw [he.bank]
      exact hnext
  · -- The label that is jumped to stands in the same room.
    obtain rfl : i = .jump kind target := hi
    obtain ⟨a', b', hbody'⟩ := List.append_of_mem (hneat.jumps kind target (by simp [hbody]))
    have hbank : s.bank = 0 := hallows
    refine ⟨a', _, hbody', ?_, ?_⟩
    · rw [hjump]
      exact hl.labelMap_eq hr hbody'
    · rw [he.bank]
      show T.Guards 0 _ s.bank
      rw [hbank]
      exact hneat.guards_zero hbody' fun _ h => h

/-- A procedure returns in its dispatch and nowhere else. -/
theorem inDispatch_of_back (hr : r ∈ P.rooms) (hname : r.name = some p)
    (hreturns : P.returns p ≠ []) {pos : Nat} (hlo : P.place r r.body ≤ pos)
    (hhi : pos < P.stop r) :
    InDispatch P.lines p pos ∧ ∀ q ∈ P.procedures, InDispatch P.lines q pos → q = p := by
  refine ⟨(hl.inDispatch_iff hs hr hname).2 ⟨hreturns, hlo, hhi⟩, fun q hq hpos => ?_⟩
  have hq' := hl.name_eq hs hr ((P.place_nil_le r _).trans hlo) (.inr hhi) hq
    (hl.inBody_of_inDispatch hs hq hpos)
  exact Option.some.inj (hq'.symm.trans hname)

/-- A run that walks in one room has left the dispatch of another. -/
theorem Walks.not_inDispatch (h : P.Walks T calls t) (hp : p ∈ P.procedures)
    (hne : caller calls ≠ some p) : ¬ InDispatch P.lines p t.pc := by
  obtain ⟨r, hr, hname, a, b, hbody, hpc, -⟩ := h.inside
  intro hpos
  have hroom := hl.name_eq hs hr (hpc ▸ P.place_nil_le r a) (.inl (hpc ▸ P.place_le_body hbody)) hp
    (hl.inBody_of_inDispatch hs hp hpos)
  exact hne (hname.symm.trans hroom)

variable (hac : ∀ p, ¬ CanReach graph p p)
include hac

/-- One step at the start. -/
theorem step_start {dest : Nat} (hstep : image.step? s = some t) (h : P.Starts T image dest s) :
    P.Stage T image [] t ∧ image.callsAfter P.lines s t [] = [] := by
  have hback : ∀ p ∈ P.procedures, InDispatch P.lines p s.pc → InDispatch P.lines p t.pc := by
    intro p hp hpos
    exact absurd (hl.inBody_of_inDispatch hs hp hpos) (hl.not_inBody_head hs h.pc_mem.2 hp)
  cases h with
  | leave _ _ hop hcall hstep' _ hwalks =>
    obtain rfl := Option.some.inj (hstep.symm.trans hstep')
    exact ⟨hwalks.stage hl hs hac, callsAfter_eq hs hop hcall hback⟩
  | stay _ _ hop hstays hstep' hnext =>
    obtain rfl := Option.some.inj (hstep.symm.trans hstep')
    exact ⟨.start hnext, callsAfter_eq hs hop (fun p => hstays _) hback⟩

/-- One step of a call. -/
theorem step_call {ret : String} (hstep : image.step? s = some t) (hr : r ∈ P.rooms)
    (hname : r.name = caller calls) (hbody : r.body = a ++ .call p ret :: b)
    (h : P.Enters T image calls r a p ret s) :
    P.Stage T image (image.callsAfter P.lines s t calls) t
      ∧ P.Move image s t calls (image.callsAfter P.lines s t calls) := by
  have hproc := (hs.called r hr p ret (by simp [hbody])).2
  cases h with
  | @leave _ _ op _ _ hop hleaves hstep' hpc hwalks =>
    obtain rfl := Option.some.inj (hstep.symm.trans hstep')
    obtain ⟨i, d⟩ := op
    obtain ⟨hnext, rfl⟩ := hleaves
    have hcalls : image.callsAfter P.lines s t calls = ⟨p, s.pc + 1⟩ :: calls := by
      rw [Image.callsAfter, Image.called?_eq_some hop (hs.mem_procedureNames_iff.2 hproc)]
    rw [hcalls]
    refine ⟨?_, .opened hproc hop hpc⟩
    rw [hnext]
    exact hwalks.stage hl hs hac
  | stay hlo hhi hop hstays hstep' hnext =>
    obtain rfl := Option.some.inj (hstep.symm.trans hstep')
    have hbefore : s.pc < P.place r r.body :=
      hhi.trans_le (P.place_le_body (b := b) (by simp [hbody]))
    rw [callsAfter_eq hs hop (fun p => hstays _) fun q hq hpos =>
      absurd hpos (hl.not_inDispatch hs hr ((P.place_nil_le r a).trans hlo) hbefore hq)]
    exact ⟨.call hr hname hbody hnext, .stay⟩

/-- One step of a return. -/
theorem step_back {ret : String} (hstep : image.step? s = some t) (hr : r ∈ P.rooms)
    (hname : r.name = some c.procedure) (hret : ret ∈ P.returns c.procedure)
    (hback : Image.labelMap P.lines ret = c.back) (hne : caller calls ≠ some c.procedure)
    (h : P.Returns T image calls r c ret s) :
    P.Stage T image (image.callsAfter P.lines s t (c :: calls)) t
      ∧ P.Move image s t (c :: calls) (image.callsAfter P.lines s t (c :: calls)) := by
  have hproc : c.procedure ∈ P.procedures := mem_procedures.2 ⟨r, hr, hname⟩
  have hreturns := List.ne_nil_of_mem hret
  obtain ⟨hhere, hunique⟩ := inDispatch_of_back hl hs hr hname hreturns h.pc_mem.1 h.pc_mem.2
  cases h with
  | @leave _ _ op _ _ hop hleaves hstep' hpc hwalks =>
    obtain rfl := Option.some.inj (hstep.symm.trans hstep')
    obtain ⟨i, d⟩ := op
    obtain ⟨kind, rfl⟩ := hleaves
    obtain ⟨n, rfl⟩ := hs.exists_labelName hret
    -- The caller is another procedure, so the run has left the dispatch and not come back to it.
    have hreturned : Image.returned? P.lines s t = some c.procedure :=
      Image.returned?_eq_some (hs.mem_procedureNames_iff.2 hproc) hhere
        (hwalks.not_inDispatch hl hs hproc hne)
        fun q hq => hunique q (hs.mem_procedureNames_iff.1 hq)
    have hcalls : image.callsAfter P.lines s t (c :: calls) = calls := by
      rw [Image.callsAfter, Image.called?_eq_none hop, hreturned]
      · simp
      · intro p hp
        exact Gen.procedureLabel_ne_labelName p n (Instruction.jump.inj hp).2.symm
    rw [hcalls]
    exact ⟨hwalks.stage hl hs hac, .closed rfl hproc hhere hpc⟩
  | stay _ _ hop hstays hstep' hnext =>
    obtain rfl := Option.some.inj (hstep.symm.trans hstep')
    rw [callsAfter_eq hs hop (fun p => hstays _)]
    · exact ⟨.back hr hname hret hback hne hnext, .stay⟩
    · intro q hq hpos
      rw [hunique q hq hpos]
      exact (inDispatch_of_back hl hs hr hname hreturns hnext.pc_mem.1 hnext.pc_mem.2).1

/-- One step of a run. -/
theorem Stage.step (h : P.Stage T image calls s) (hd : s.Digits) (hstep : image.step? s = some t) :
    P.Stage T image (image.callsAfter P.lines s t calls) t
      ∧ P.Move image s t calls (image.callsAfter P.lines s t calls) := by
  cases h with
  | start h =>
    obtain ⟨hstage, hcalls⟩ := step_start hl hs hac hstep h
    rw [hcalls]
    exact ⟨hstage, .stay⟩
  | @walk _ _ r a b i hr hname hbody hpc hguards hawaits =>
    have hwalks := walks_of_step hl hs hd hr hname hbody hpc hguards hawaits hstep
    obtain ⟨hop, hcall⟩ := op_eq hl hs hr hbody hpc
    have hlt : s.pc < P.place r r.body := hpc ▸ P.place_lt_body hbody
    rw [callsAfter_eq hs hop hcall fun p hp hpos =>
      absurd hpos (hl.not_inDispatch hs hr (hpc ▸ P.place_nil_le r a) hlt hp)]
    exact ⟨hwalks.stage hl hs hac, .stay⟩
  | call hr hname hbody h => exact step_call hl hs hac hstep hr hname hbody h
  | back hr hname hret hback hne h => exact step_back hl hs hac hstep hr hname hret hback hne h
  | done hpc =>
    rw [Image.step?, hpc, hl.ends] at hstep
    cases hstep

/-! ### Whole runs -/

/-- The open calls of a run, however long, and the stage that it has come to. -/
theorem stage_of_steps (hm : m.Nibbles) {inp : Vector Nat 16} (hi : ∀ x ∈ inp, x < 16) {n : Nat}
    (hsteps : image.steps n { mem := m, inp := inp } = some s) :
    s.Digits ∧ P.Stage T image (image.openCalls P.lines { mem := m, inp := inp } n) s := by
  induction n generalizing s with
  | zero =>
    cases hsteps
    exact ⟨⟨Nat.zero_lt_succ _, Nat.zero_lt_succ _, Nat.zero_lt_succ _, hm, hi⟩,
      stage_start hl hs m inp⟩
  | succ n ih =>
    rw [Image.steps_add] at hsteps
    obtain ⟨u, hu, hstep⟩ := Option.bind_eq_some_iff.1 hsteps
    obtain ⟨t, hstep, hend⟩ := Option.bind_eq_some_iff.1 hstep
    cases hend
    obtain ⟨hd, hstage⟩ := ih hu
    rw [Image.openCalls_succ hu hstep]
    exact ⟨Image.digits_of_step hstep hd, (hstage.step hl hs hac hd hstep).1⟩

omit hac

/-- A run is in a procedure when the last open call is one of it, and only then. -/
theorem Stage.inBody_iff (h : P.Stage T image calls s) (hp : p ∈ P.procedures) :
    InBody P.lines p s.pc ↔ caller calls = some p := by
  -- At every stage but the first and the last the run is in the room of the last open call.
  have hroom : ∀ r ∈ P.rooms, r.name = caller calls → P.place r [] ≤ s.pc → s.pc < P.stop r →
      (InBody P.lines p s.pc ↔ caller calls = some p) := by
    intro r hr hname hlo hhi
    constructor
    · exact fun hpos => hname ▸ hl.name_eq hs hr hlo (.inr hhi) hp hpos
    · exact fun hcaller => (hl.inBody_iff hs hr (hname.trans hcaller)).2 ⟨hlo, hhi⟩
  cases h with
  | start h => exact iff_of_false (hl.not_inBody_head hs h.pc_mem.2 hp) nofun
  | @walk _ _ r a b i hr hname hbody hpc _ _ =>
    have hlt : s.pc < P.place r r.body := hpc ▸ P.place_lt_body hbody
    exact hroom r hr hname (hpc ▸ P.place_nil_le r a) (hlt.trans_le (P.place_body_le_stop r))
  | @call _ _ r a b q ret hr hname hbody h =>
    refine hroom r hr hname ((P.place_nil_le r a).trans h.pc_mem.1) (h.pc_mem.2.trans_le ?_)
    exact (P.place_le_body (b := b) (by simp [hbody])).trans (P.place_body_le_stop r)
  | back hr hname _ _ _ h =>
    exact hroom _ hr hname ((P.place_nil_le _ _).trans h.pc_mem.1) h.pc_mem.2
  | done hpc =>
    refine iff_of_false (fun hpos => ?_) nofun
    obtain ⟨r, hr, hname⟩ := mem_procedures.1 hp
    have hlt := ((hl.inBody_iff hs hr hname).1 hpos).2
    have hle := (hl.rooms.1 r hr).2.2
    omega

/-- A run that is where a procedure returns comes behind the last open call, which is one of the
procedure. -/
theorem Stage.of_inDispatch (h : P.Stage T image calls s) (hp : p ∈ P.procedures)
    (hpos : InDispatch P.lines p s.pc) : ∃ c rest, calls = c :: rest ∧ c.procedure = p
      ∧ (∃ ret ∈ P.returns p, Image.labelMap P.lines ret = c.back)
      ∧ ∃ n t, image.steps (n + 1) s = some t ∧ t.pc = c.back
        ∧ ∀ k ≤ n, ∃ u, image.steps k s = some u ∧ InDispatch P.lines p u.pc := by
  have hcaller := (h.inBody_iff hl hs hp).1 (hl.inBody_of_inDispatch hs hp hpos)
  cases h with
  | start | done => cases hcaller
  | @walk _ _ r a b i hr hname hbody hpc _ _ =>
    have hlt : s.pc < P.place r r.body := hpc ▸ P.place_lt_body hbody
    exact absurd hpos (hl.not_inDispatch hs hr (hpc ▸ P.place_nil_le r a) hlt hp)
  | @call _ _ r a b q ret hr hname hbody h =>
    refine absurd hpos (hl.not_inDispatch hs hr ((P.place_nil_le r a).trans h.pc_mem.1) ?_ hp)
    exact h.pc_mem.2.trans_le (P.place_le_body (b := b) (by simp [hbody]))
  | @back c rest _ r ret hr hname hret hback _ h =>
    obtain rfl : c.procedure = p := Option.some.inj hcaller
    obtain ⟨n, t, hsteps, hpc, -, hwithin⟩ := h.exists_steps
    refine ⟨c, rest, rfl, rfl, ⟨ret, hret, hback⟩, n, t, hsteps, hpc, fun k hk => ?_⟩
    obtain ⟨u, hu, hlo, hhi⟩ := hwithin k hk
    exact ⟨u, hu, (inDispatch_of_back hl hs hr hname (List.ne_nil_of_mem hret) hlo hhi).1⟩

end Steps

end Plan

end NibblePascal
