import NibblePascal.Proofs.Machine.Stretch
import NibblePascal.Proofs.Simulation.Calls

/-!
# Cells that a stretch of code leaves alone

A run that is in a stretch of a room comes into other rooms by calls only.  So it changes no cell
that neither the stretch nor a procedure that can be reached from there stores into.

* `procedureLines lines p`: the lines of a procedure;
* `Piece.LeadsTo graph code q`: the procedure `q` is called in the code, by itself or through others;
* `P.Occupies graph r a mid base calls s`: with the open calls `calls` the run is in the pieces `mid`
  of a room, or in a procedure that was called from there;
* `Plan.Occupies.step` and `Plan.Occupies.inst_ne`: so it stays until the run leaves the pieces, and
  no instruction stores into a cell that the pieces and the procedures leave alone.
-/

namespace NibblePascal

/-- The lines of a procedure, from its label on. -/
def procedureLines (lines : List Line) (p : String) : List Line :=
  (lines.dropWhile (· != .label (Gen.procedureLabel p))).takeWhile (· != .endProc p)

theorem mem_procedureLines {p : String} {before body after : List Line} {l : Line} (hl : l ∈ body)
    (hend : .endProc p ∉ before ++ .label (Gen.procedureLabel p) :: body) :
    l ∈ procedureLines (before ++ .label (Gen.procedureLabel p) :: (body ++ .endProc p :: after)) p := by
  have hall : ∀ {lines : List Line}, .endProc p ∉ lines → ∀ l ∈ lines, (l != .endProc p) = true :=
    fun hnot l hl => bne_iff_ne.2 fun heq => hnot (heq ▸ hl)
  -- Everything from the first label on is taken, up to the mark of the end.
  have htake : ∀ front, .endProc p ∉ front ++ .label (Gen.procedureLabel p) :: body →
      l ∈ (front ++ .label (Gen.procedureLabel p) :: (body ++ .endProc p :: after)).takeWhile
        (· != .endProc p) := by
    intro front hfront
    rw [← List.cons_append, ← List.append_assoc, List.takeWhile_append_of_pos (hall hfront)]
    simp [hl]
  induction before with
  | nil =>
    rw [procedureLines, List.nil_append, List.dropWhile_cons_of_neg (by simp)]
    exact htake [] hend
  | cons l' before ih =>
    by_cases hlabel : l' = .label (Gen.procedureLabel p)
    · rw [procedureLines, List.cons_append, List.dropWhile_cons_of_neg (by simp [hlabel])]
      exact htake (l' :: before) hend
    · rw [procedureLines, List.cons_append, List.dropWhile_cons_of_pos (by simpa using hlabel)]
      exact ih fun hmem => hend (.tail _ hmem)

/-- The procedure is called in the code, by itself or through others. -/
def Piece.LeadsTo (graph : List (Option String × String)) (code : List Piece) (q : String) : Prop :=
  ∃ p ret, .call p ret ∈ code ∧ (p = q ∨ CanReach graph p q)

theorem Piece.LeadsTo.tail {graph : List (Option String × String)} {code : List Piece} {p q : String}
    (h : LeadsTo graph code p) (hcall : (some p, q) ∈ graph) : LeadsTo graph code q := by
  obtain ⟨p', ret, hmem, rfl | hreach⟩ := h
  · exact ⟨p', ret, hmem, .inr (.single hcall)⟩
  · exact ⟨p', ret, hmem, .inr (hreach.tail hcall)⟩

/-- For `k` steps from step `n` on the run is between the positions `lo` and `hi` whenever no call is
open but those of step `n`, which stay open. -/
def Image.Remains (image : Image) (lines : List Line) (start : State) (lo hi n k : Nat) : Prop :=
  ∀ i < k, ∃ s more, image.steps (n + i) start = some s
    ∧ image.openCalls lines start (n + i) = more ++ image.openCalls lines start n
    ∧ (more = [] → lo ≤ s.pc ∧ s.pc < hi)

/-- An allowed store into bank 0 names its cell. -/
theorem Territory.Placed.inst_eq_of_stored {T : Territory} (h : T.Placed) {s : State}
    {i : Instruction} {addr : Nat} (hs : s.Digits) (hi : T.Allows s.bank (.inst i))
    (hstored : s.stored? i = some addr) (haddr : addr < scalarSpace) : i = .sta (.mem addr) := by
  unfold State.stored? at hstored
  split at hstored
  · obtain ⟨hbank, howns⟩ := hi
    rw [h.direct_eq hbank howns, Option.some.injEq] at hstored
    rw [hstored]
  · obtain ⟨r, hr, hbank, rfl⟩ := hi
    have hlow := (h.banked_mem hs hr hbank).1
    have hbase : scalarSpace ≤ r.base := ArrayVar.base_ge (h.array r hr)
    rw [Option.some.injEq] at hstored
    omega
  · cases hstored

namespace Plan

variable {P : Plan} {T : Territory} {graph : List (Option String × String)} {image : Image}
  {r : Room} {a b mid : List Piece} {p : String} {base calls : List OpenCall} {addr : Nat} {op : Op}
  {s t : State}

/-- The instructions of a procedure are among its lines. -/
theorem Loaded.mem_procedureLines (hl : P.Loaded image) (hs : P.Sound T graph)
    (hp : p ∈ P.procedures) {pos : Nat} (hpos : InBody P.lines p pos)
    (hop : image.ops[pos]? = some op) : .inst op.inst ∈ procedureLines P.lines p := by
  obtain ⟨r, hr, hname⟩ := mem_procedures.1 hp
  obtain ⟨hlo, hhi⟩ := (hl.inBody_iff hs hr hname).1 hpos
  have hlines : P.expand (r.body ++ r.ending) = P.expand (r.body ++ [.finish p]) ++ [.endProc p] := by
    rw [Room.ending, hname]
    simp [expand]
    rfl
  have hwithin : Within (P.place r []) (P.expand (r.body ++ r.ending)) pos := by
    refine ⟨hlo, hhi.trans_eq ?_⟩
    rw [stop, place, place]
    rfl
  obtain ⟨i, hi, hop'⟩ := ((hl.rooms.1 r hr).2.1).exists_inst_of_within hwithin
  obtain rfl := Option.some.inj (hop'.symm.trans hop)
  obtain ⟨before, after, heq, hend, -⟩ := hl.exists_lines hs hr hname
  rw [hlines, List.mem_append] at hi
  rw [heq]
  exact NibblePascal.mem_procedureLines (hi.resolve_right (by simp)) hend

/-- A jump into a procedure is that of a call in the room of the last open call. -/
theorem Stage.opened (h : P.Stage T image calls s) (hl : P.Loaded image) (hs : P.Sound T graph) {d : Nat}
    (hop : image.ops[s.pc]? = some ⟨.jump .jmp (Gen.procedureLabel p), d⟩) :
    ∃ r ∈ P.rooms, r.name = caller calls ∧ ∃ a b ret, r.body = a ++ .call p ret :: b
      ∧ P.place r a ≤ s.pc ∧ s.pc < P.place r (a ++ [.call p ret]) := by
  have hsame : ∀ {op : Op}, image.ops[s.pc]? = some op → op.inst = .jump .jmp (Gen.procedureLabel p) :=
    fun hop' => congrArg Op.inst (Option.some.inj (hop'.symm.trans hop))
  cases h with
  | start h =>
    cases h with
    | leave _ _ hop' hleaves => exact absurd (hsame hop') (hleaves p)
    | stay _ _ hop' hstays => exact absurd (hsame hop') (hstays _)
  | walk hr hname hbody hpc =>
    obtain ⟨hop', hcall⟩ := op_eq hl hs hr hbody hpc
    exact absurd (hsame hop') (hcall p)
  | @call _ _ r a b q ret hr hname hbody h =>
    have hpos := h.pc_mem
    cases h with
    | leave _ _ hop' hleaves =>
      obtain ⟨-, hjump⟩ := hleaves
      obtain rfl := Gen.procedureLabel_injective
        (Instruction.jump.inj (hjump.symm.trans (hsame hop'))).2
      exact ⟨r, hr, hname, a, b, ret, hbody, hpos⟩
    | stay _ _ hop' hstays => exact absurd (hsame hop') (hstays _)
  | back hr hname hret hback hne h =>
    cases h with
    | leave _ _ hop' hleaves =>
      obtain ⟨kind, hjump⟩ := hleaves
      obtain ⟨n, rfl⟩ := hs.exists_labelName hret
      have hlabel := (Instruction.jump.inj (hjump.symm.trans (hsame hop'))).2
      exact absurd hlabel.symm (Gen.procedureLabel_ne_labelName p n)
    | stay _ _ hop' hstays => exact absurd (hsame hop') (hstays _)
  | done hpc =>
    rw [hpc, hl.ends] at hop
    cases hop

/-- A piece with a position between two places stands there. -/
theorem mem_of_place {c d : List Piece} {piece : Piece} {pos : Nat}
    (hbody : r.body = a ++ (mid ++ b)) (hpiece : r.body = c ++ piece :: d) (hlo : P.place r a ≤ pos)
    (hhi : pos < P.place r (a ++ mid)) (hstart : P.place r c ≤ pos)
    (hstop : pos < P.place r (c ++ [piece])) : piece ∈ mid := by
  have hle : ∀ x y, P.place r x ≤ P.place r (x ++ y) := fun x y => by
    rw [place_append]
    exact Nat.le_add_right ..
  obtain ⟨e, rfl, hmid⟩ | ⟨e, rfl, hmid⟩ := List.append_eq_append_iff.1 (hbody.symm.trans hpiece)
  · obtain ⟨f, rfl, -⟩ | ⟨f, rfl, hf⟩ := List.append_eq_append_iff.1 hmid
    · have hbehind := hle (a ++ mid) f
      rw [List.append_assoc] at hbehind
      omega
    · cases f with
      | nil =>
        rw [List.append_nil] at hhi
        omega
      | cons piece' f =>
        obtain ⟨rfl, -⟩ := List.cons.inj hf
        simp
  · cases e with
    | nil =>
      cases mid with
      | nil =>
        rw [List.append_nil] at hhi
        omega
      | cons piece' mid =>
        obtain ⟨rfl, -⟩ := List.cons.inj hmid
        exact .head _
    | cons piece' e =>
      obtain ⟨rfl, -⟩ := List.cons.inj hmid
      have hbefore := hle (c ++ [piece]) e
      rw [List.append_assoc, List.singleton_append] at hbefore
      omega

/-- Pieces store into cells of the territory themselves, calls only into selectors. -/
theorem Sound.mem_of_store (hs : P.Sound T graph) (hr : r ∈ P.rooms) (hmid : mid ⊆ r.body)
    (haddr : T.Owns addr) (h : Code.store addr ∈ P.expand mid) : .line (Code.store addr) ∈ mid := by
  obtain ⟨piece, hpiece, hstore⟩ := List.mem_flatMap.1 h
  cases piece with
  | line l => exact List.mem_singleton.1 hstore ▸ hpiece
  | call p ret =>
    have hp := (hs.called r hr p ret (hmid hpiece)).2
    obtain ⟨-, rfl⟩ : 1 < (P.returns p).length ∧ addr = (P.selector p).addr := by
      simpa [Piece.expand, Code.selectCall, Code.store, Code.jump] using hstore
    exact absurd (.inl haddr) (hs.selector p hp).2
  | finish p => exact absurd (hmid hpiece) ((hs.neat r hr).unfinished p)

/-- With the open calls `calls` the run is in the pieces `mid`, which stand behind `a` in the room,
or in a procedure that was called from there; `base` are the calls that were open before. -/
def Occupies (P : Plan) (graph : List (Option String × String)) (r : Room) (a mid : List Piece)
    (base calls : List OpenCall) (s : State) : Prop :=
  ∃ more, calls = more ++ base
    ∧ (∀ c ∈ more, c.procedure ∈ P.procedures ∧ Piece.LeadsTo graph mid c.procedure)
    ∧ (more = [] → P.place r a ≤ s.pc ∧ s.pc < P.place r (a ++ mid))

section Occupies

variable (hl : P.Loaded image) (hs : P.Sound T graph) (hr : r ∈ P.rooms)
  (hbody : r.body = a ++ (mid ++ b))
include hl hs hr hbody

/-- One step of a run that does not leave the pieces but by calls. -/
theorem Occupies.step (hac : ∀ p, ¬ CanReach graph p p) (hname : r.name = caller base)
    (h : P.Occupies graph r a mid base calls s) (hstage : P.Stage T image calls s) (hd : s.Digits)
    (hstep : image.step? s = some t) {more : List OpenCall}
    (hcalls : image.callsAfter P.lines s t calls = more ++ base)
    (hin : more = [] → P.place r a ≤ t.pc ∧ t.pc < P.place r (a ++ mid)) :
    P.Occupies graph r a mid base (image.callsAfter P.lines s t calls) t := by
  obtain ⟨before, rfl, hleads, hhere⟩ := h
  refine ⟨more, hcalls, ?_, hin⟩
  have hmove := (hstage.step hl hs hac hd hstep).2
  generalize image.callsAfter P.lines s t (before ++ base) = after at hcalls hmove
  cases hmove with
  | stay =>
    rw [← List.append_cancel_right hcalls]
    exact hleads
  | closed hbefore hp hpos hpc =>
    subst hcalls
    rw [← List.cons_append] at hbefore
    rw [List.append_cancel_right hbefore] at hleads
    exact fun c hc => hleads c (.tail _ hc)
  | @opened p d hp hop hpc =>
    rw [← List.cons_append] at hcalls
    rw [← List.append_cancel_right hcalls]
    refine List.forall_mem_cons.2 ⟨⟨hp, ?_⟩, hleads⟩
    obtain ⟨r', hr', hname', c, d, ret, hcall, hpos⟩ := hstage.opened hl hs hop
    cases before with
    | nil =>
      obtain rfl := hs.eq_of_name hr' hr (hname'.trans hname.symm)
      exact ⟨p, ret, mem_of_place hbody hcall (hhere rfl).1 (hhere rfl).2 hpos.1 hpos.2, .inl rfl⟩
    | cons c' before =>
      have hgraph := (hs.called r' hr' p ret (by simp [hcall])).1
      rw [hname'] at hgraph
      exact (hleads c' (.head _)).2.tail hgraph

/-- No instruction stores into a cell that the pieces and the procedures called there leave alone. -/
theorem Occupies.inst_ne (h : P.Occupies graph r a mid base calls s)
    (hstage : P.Stage T image calls s) (hhere : Code.store addr ∉ P.expand mid)
    (haway : ∀ q, Piece.LeadsTo graph mid q → Code.store addr ∉ procedureLines P.lines q)
    (hop : image.ops[s.pc]? = some op) : op.inst ≠ .sta (.mem addr) := by
  obtain ⟨more, rfl, hleads, hin⟩ := h
  intro hinst
  have hstore : .inst op.inst = Code.store addr := congrArg Line.inst hinst
  cases more with
  | nil =>
    obtain ⟨hlo, hhi⟩ := hin rfl
    rw [place_append] at hhi
    have hhold := hl.holds_place hr
      (show r.body ++ r.ending = a ++ (mid ++ (b ++ r.ending)) by simp [hbody])
    rw [expand_append] at hhold
    obtain ⟨i, hi, hop'⟩ :=
      ((Image.holds_append ..).1 hhold).1.exists_inst_of_within ⟨hlo, hhi⟩
    obtain rfl := Option.some.inj (hop'.symm.trans hop)
    exact hhere (hstore ▸ hi)
  | cons c more =>
    obtain ⟨hp, hto⟩ := hleads c (.head _)
    have hpos : InBody P.lines c.procedure s.pc := (hstage.inBody_iff hl hs hp).2 rfl
    exact haway _ hto (hstore ▸ hl.mem_procedureLines hs hp hpos hop)

end Occupies

/-- A run that is in the body of a room has its last open call there. -/
theorem Stage.caller_eq (h : P.Stage T image calls s) (hl : P.Loaded image) (hs : P.Sound T graph)
    (hr : r ∈ P.rooms) (hlo : P.place r [] ≤ s.pc) (hhi : s.pc < P.place r r.body) :
    r.name = caller calls := by
  have hmem : ∀ q, caller calls = some q → q ∈ P.procedures := by
    intro q hq
    cases h with
    | start | done => cases hq
    | walk hr' hname' | call hr' hname' => exact mem_procedures.2 ⟨_, hr', hname'.trans hq⟩
    | back hr' hname' => exact mem_procedures.2 ⟨_, hr', hname'.trans hq⟩
  cases hname : r.name with
  | some p =>
    have hp : p ∈ P.procedures := mem_procedures.2 ⟨r, hr, hname⟩
    have hpos := (hl.inBody_iff hs hr hname).2 ⟨hlo, hhi.trans_le (P.place_body_le_stop r)⟩
    exact ((h.inBody_iff hl hs hp).1 hpos).symm
  | none =>
    cases hcaller : caller calls with
    | none => rfl
    | some q =>
      have hq := hmem q hcaller
      have hroom := hl.name_eq hs hr hlo (.inl hhi.le) hq ((h.inBody_iff hl hs hq).2 hcaller)
      exact hname.symm.trans hroom

/-! ### Whole runs -/

section Runs

variable {T' : Territory} {m : Memory} {inp : Vector Nat 16} {n k : Nat}
  (hl : P.Loaded image) (hs : P.Sound T graph) (hac : ∀ p, ¬ CanReach graph p p)
  (hm : m.Nibbles) (hi : ∀ x ∈ inp, x < 16) (hr : r ∈ P.rooms) (hbody : r.body = a ++ (mid ++ b))
  (hremains : image.Remains P.lines { mem := m, inp := inp } (P.place r a) (P.place r (a ++ mid)) n k)
include hl hs hac hm hi hr hbody hremains

theorem occupies_of_remains {j : Nat} (hj : j < k)
    (hsteps : image.steps (n + j) { mem := m, inp := inp } = some s) :
    P.Occupies graph r a mid (image.openCalls P.lines { mem := m, inp := inp } n)
      (image.openCalls P.lines { mem := m, inp := inp } (n + j)) s := by
  -- At the start the run is in the pieces, so the last open call is that of the room.
  have hstart : ∃ u, image.steps n { mem := m, inp := inp } = some u
      ∧ P.place r a ≤ u.pc ∧ u.pc < P.place r (a ++ mid) := by
    obtain ⟨u, more, hu, hcalls, hin⟩ := hremains 0 (Nat.zero_lt_of_lt hj)
    exact ⟨u, hu, hin (List.self_eq_append_left.1 hcalls)⟩
  induction j generalizing s with
  | zero =>
    obtain ⟨u, hu, hin⟩ := hstart
    obtain rfl := Option.some.inj (hu.symm.trans hsteps)
    exact ⟨[], rfl, nofun, fun _ => hin⟩
  | succ j ih =>
    obtain ⟨s', more, hs', hcalls, hin⟩ := hremains (j + 1) hj
    obtain rfl := Option.some.inj (hs'.symm.trans hsteps)
    rw [← Nat.add_assoc, Image.steps_add] at hsteps
    obtain ⟨u, hu, hstep⟩ := Option.bind_eq_some_iff.1 hsteps
    obtain ⟨t, hstep, hend⟩ := Option.bind_eq_some_iff.1 hstep
    cases hend
    obtain ⟨hd, hstage⟩ := stage_of_steps hl hs hac hm hi hu
    have hname : r.name = caller (image.openCalls P.lines { mem := m, inp := inp } n) := by
      obtain ⟨v, hv, hlo, hhi⟩ := hstart
      refine (stage_of_steps hl hs hac hm hi hv).2.caller_eq hl hs hr
        ((P.place_nil_le r a).trans hlo) (hhi.trans_le ?_)
      exact P.place_le_body (b := b) (by simp [hbody])
    rw [← Nat.add_assoc, Image.openCalls_succ hu hstep] at hcalls ⊢
    exact (ih (Nat.lt_of_succ_lt hj) hu).step hl hs hr hbody hac hname hstage hd hstep hcalls hin

/-- As long as a run is in the pieces or in a procedure that was called from there, it does not
change a cell that none of them stores into. -/
theorem read_eq_of_remains (hloads : T'.Loads image (Image.labelMap P.lines) P.lines)
    (haddr : addr < scalarSpace) (hhere : Code.store addr ∉ P.expand mid)
    (haway : ∀ q, Piece.LeadsTo graph mid q → Code.store addr ∉ procedureLines P.lines q)
    (hsteps : image.steps n { mem := m, inp := inp } = some s)
    (hlast : image.steps (n + k) { mem := m, inp := inp } = some t) :
    t.mem.read addr = s.mem.read addr := by
  induction k generalizing t with
  | zero =>
    obtain rfl := Option.some.inj (hsteps.symm.trans hlast)
    rfl
  | succ k ih =>
    have hoccupies := fun {u} => occupies_of_remains (s := u) hl hs hac hm hi hr hbody hremains
      (Nat.lt_succ_self k)
    rw [← Nat.add_assoc, Image.steps_add] at hlast
    obtain ⟨u, hu, hstep⟩ := Option.bind_eq_some_iff.1 hlast
    obtain ⟨t', hstep, hend⟩ := Option.bind_eq_some_iff.1 hstep
    cases hend
    rw [← ih (fun j hj => hremains j (Nat.lt_succ_of_lt hj)) hu]
    obtain ⟨hd, hstage⟩ := stage_of_steps hl hs hac hm hi hu
    obtain ⟨op, hop, he⟩ := Image.exists_executed hstep
    refine he.read_eq fun hstored => (hoccupies hu).inst_ne hl hs hr hbody hstage hhere haway hop ?_
    obtain ⟨-, i, -, -, -, -, hallows, rfl⟩ :=
      ((Territory.Confines.start hm hi P.lines).steps hloads hu).next_inst hloads hop
    exact hloads.placed.inst_eq_of_stored hd hallows hstored haddr

end Runs

end Plan

end NibblePascal
