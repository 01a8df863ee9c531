import NibblePascal.Proofs.Fragments.Return
import NibblePascal.Proofs.Generation.Program
import NibblePascal.Proofs.Machine.Exits
import Mathlib.Data.List.Nodup
import Mathlib.Data.List.Pairwise

/-!
# Calls and returns as generated

The calls of the procedures are known when all code has been generated.  Then `dispatch` goes over
the lines once: it puts the return of a procedure in the place of its end, and the number of a call
before its jump.  `Dispatched` says which lines stay and which are new, and `Procedure.Returns` what
a return looks like and what it does.
-/

namespace NibblePascal

open Code

/-! ### Returns -/

/-- The jump of a line. -/
def Line.jump? : Line → Option (JumpKind × String)
  | .inst (.jump kind target) => some (kind, target)
  | _ => none

/-- The jumps of lines. -/
def jumps (lines : List Line) : List (JumpKind × String) := lines.filterMap Line.jump?

/-- The lines return to the calls of a procedure. -/
structure Procedure.Returns (p : Procedure) (lines : List Line) : Prop where
  /-- For one call, there is nothing to look at. -/
  single : ∀ c, p.calls = [c] → lines = [jump .jmp c.ret]
  /-- There are conditional jumps to all calls but the last one, in their order, and then an
  unconditional one. -/
  cascade : ∃ kinds, kinds.length + 1 = p.calls.length ∧ JumpKind.jmp ∉ kinds
    ∧ jumps lines = (kinds ++ [.jmp]).zip (p.calls.map (·.ret))
  /-- The unconditional jump stands at the end. -/
  last : ∀ c, p.calls.getLast? = some c → lines.getLast? = some (jump .jmp c.ret)
  /-- In every image, the first jump that is taken leads to the call whose number the selector
  holds. -/
  leads : ∀ (image : Image) (ρ : String → Nat) (s : State), image.Holds ρ s.pc lines → s.bank = 0 →
    ∀ k c, p.calls[k]? = some c → (1 < p.calls.length → s.mem.read p.selector.addr = k) →
      ∃ t, image.Quits ρ lines (fun _ => True) c.ret s t ∧ s.Same t

namespace Code

variable {v : Var} {labels : List String}

theorem jumps_returnCascade (h : labels ≠ []) :
    ∃ kinds, kinds.length + 1 = labels.length ∧ JumpKind.jmp ∉ kinds
      ∧ jumps (returnCascade labels) = (kinds ++ [.jmp]).zip labels := by
  fun_induction returnCascade labels with
  | case1 => exact absurd rfl h
  | case2 last => exact ⟨[], rfl, List.not_mem_nil, rfl⟩
  | case3 first last => exact ⟨[.jz], rfl, by decide, rfl⟩
  | case4 first rest hone htwo ih =>
    obtain ⟨kinds, hlength, hkinds, hjumps⟩ := ih hone
    refine ⟨.jz :: kinds, by simp [hlength], by simp [hkinds], ?_⟩
    exact congrArg (List.cons (JumpKind.jz, first)) hjumps

theorem jumps_returnDispatch (v : Var) (h : labels ≠ []) :
    ∃ kinds, kinds.length + 1 = labels.length ∧ JumpKind.jmp ∉ kinds
      ∧ jumps (returnDispatch v labels) = (kinds ++ [.jmp]).zip labels := by
  cases labels with
  | nil => exact absurd rfl h
  | cons first rest =>
    cases rest with
    | nil => exact ⟨[], rfl, List.not_mem_nil, rfl⟩
    | cons second rest =>
      obtain ⟨kinds, hlength, hkinds, hjumps⟩ :=
        jumps_returnCascade (List.cons_ne_nil second rest)
      refine ⟨.jb :: kinds, by simp [← hlength], by simp [hkinds], ?_⟩
      exact congrArg (List.cons (JumpKind.jb, first)) hjumps

theorem getLast?_returnCascade (labels : List String) :
    (returnCascade labels).getLast? = labels.getLast?.map (jump .jmp) := by
  fun_induction returnCascade labels with
  | case1 | case2 | case3 => rfl
  | case4 first rest hone htwo ih =>
    have hlast := List.getLast?_eq_some_getLast hone
    have hfirst : (first :: rest).getLast? = rest.getLast? := by simp [List.getLast?_cons, hlast]
    rw [List.getLast?_append, ih, hfirst, hlast]
    rfl

theorem getLast?_returnDispatch (v : Var) (labels : List String) :
    (returnDispatch v labels).getLast? = labels.getLast?.map (jump .jmp) := by
  cases labels with
  | nil => rfl
  | cons first rest =>
    cases rest with
    | nil => rfl
    | cons second rest =>
      have hlast := List.getLast?_eq_some_getLast (List.cons_ne_nil second rest)
      rw [returnDispatch.eq_3 _ _ _ (List.cons_ne_nil second rest), List.getLast?_append,
        getLast?_returnCascade, List.getLast?_cons_cons, hlast]
      rfl

end Code

namespace Image

variable {image : Image} {ρ : String → Nat} {s : State} {v : Var} {labels : List String}
  {ret : String} {k : Nat}

/-- The first jump that a return takes leads to the label whose number the selector holds. -/
theorem quits_returnDispatch (hold : image.Holds ρ s.pc (returnDispatch v labels))
    (hv : v.Placed) (hb : s.bank = 0) (hlen : labels.length ≤ 16) (hret : labels[k]? = some ret)
    (hk : 1 < labels.length → s.mem.read v.addr = k) :
    ∃ t, image.Quits ρ (returnDispatch v labels) (fun _ => True) ret s t ∧ s.Same t := by
  -- All labels are led out of the lines, and this one to a place of its own.
  let σ : String → Nat := fun x =>
    s.pc + codeSize (returnDispatch v labels) + if x = ret then 1 else 2
  have hσ : ∀ x ∈ labelNames (returnDispatch v labels), σ x = ρ x := by
    simp [labelNames_returnDispatch]
  have hexits : ∀ x, True → ¬ Within s.pc (returnDispatch v labels) (σ x) := by
    rintro x - hin
    exact absurd hin.2 (Nat.not_lt_of_le (Nat.le_add_right ..))
  obtain ⟨n, t, hsteps, hpc, hsame, hwithin⟩ :=
    (exits_returnDispatch (hold.relabel hσ) hv hb hlen hret hk).exists_steps
  have hruns : (image.relabel σ).Runs (returnDispatch v labels) (n + 1) s t := by
    refine ⟨hsteps, fun j hj u hu => ?_⟩
    obtain ⟨w, hw, hin⟩ := hwithin j (Nat.le_of_lt_succ hj)
    obtain rfl : w = u := Option.some.inj (hw.symm.trans hu)
    exact hin
  have hfar : s.pc + codeSize (returnDispatch v labels) < σ ret := by simp [σ]
  have hjumps : ∀ x ∈ jumpTargets (returnDispatch v labels),
      x ∈ labelNames (returnDispatch v labels) ∨ True := fun _ _ => .inr trivial
  obtain hlingers | ⟨x, u, -, hquits, rfl⟩ := Lingers.of_relabel hold hjumps hσ hexits hruns
  · exact absurd hfar (hpc ▸ hlingers.pc_le hold hjumps).not_gt
  · obtain rfl : x = ret := by
      by_contra hne
      simp [σ, hne] at hpc
    exact ⟨u, hquits, hsame.bank, hsame.mem, hsame.out, hsame.inp⟩

end Image

/-- The code of a return returns. -/
theorem Procedure.returns_returnDispatch {p : Procedure} (hcalls : p.calls ≠ [])
    (hlen : p.calls.length ≤ maxCalls) (hselector : p.selector.Placed) :
    p.Returns (returnDispatch p.selector (p.calls.map (·.ret))) where
  single := by
    intro c hc
    rw [hc]
    rfl
  cascade := by
    have hlabels : p.calls.map (·.ret) ≠ [] := by simpa using hcalls
    obtain ⟨kinds, hlength, hrest⟩ := jumps_returnDispatch p.selector hlabels
    exact ⟨kinds, by simpa using hlength, hrest⟩
  last := by
    intro c hc
    rw [getLast?_returnDispatch, List.getLast?_map, hc]
    rfl
  leads := by
    intro image ρ s hold hb k c hk hselected
    exact Image.quits_returnDispatch hold hselector hb (by rw [List.length_map]; exact hlen)
      (by rw [List.getElem?_map, hk]; rfl) (by simpa using hselected)

/-! ### The lines after dispatch -/

/-- The lines that stand for the end and for the calls of a procedure. -/
def Procedure.marks (p : Procedure) : List EntryId := p.finish.toList ++ p.calls.map (·.entry)

/-- The ends and the calls of the procedures are different lines of the code, every procedure that
is called has an end, and the selectors are scalars. -/
structure Generator.Marked (g : Generator) : Prop where
  ended : ∀ p ∈ g.procedures, p.calls ≠ [] → ∃ finish, p.finish = some finish
  distinct : (g.procedures.flatMap (·.marks)).Nodup
  present : ∀ id ∈ g.procedures.flatMap (·.marks), id ∈ g.code.items.toList.map (·.id)
  selectors : ∀ p ∈ g.procedures, p.selector.Placed

/-- What becomes of lines when the calls of the procedures are made to return; new lines have
numbers from `next` on. -/
inductive Dispatched (procedures : List Procedure) (next : EntryId) :
    List Entry → List Entry → Prop
  | nil : Dispatched procedures next [] []
  /-- A line stays if it is not the end of a procedure that is called, and not one of several calls
  of a procedure. -/
  | keep {e : Entry} {es ds : List Entry}
      (hfinish : ∀ p ∈ procedures, p.calls ≠ [] → p.finish ≠ some e.id)
      (hcall : ∀ p ∈ procedures, 1 < p.calls.length → ∀ c ∈ p.calls, c.entry ≠ e.id)
      (hrest : Dispatched procedures next es ds) : Dispatched procedures next (e :: es) (e :: ds)
  /-- The end of a procedure that is called gives way to its return. -/
  | finish {p : Procedure} {e : Entry} {new es ds : List Entry} (hp : p ∈ procedures)
      (hcalls : p.calls ≠ []) (hfinish : p.finish = some e.id)
      (hnew : p.Returns (new.map (·.line))) (hfresh : ∀ d ∈ new, next ≤ d.id)
      (hrest : Dispatched procedures next es ds) : Dispatched procedures next (e :: es) (new ++ ds)
  /-- The jump of one of several calls stays, and before it the selector is set to its number. -/
  | call {p : Procedure} {k : Nat} {c : Call} {e : Entry} {new es ds : List Entry}
      (hp : p ∈ procedures) (hmany : 1 < p.calls.length) (hcall : p.calls[k]? = some c)
      (hentry : c.entry = e.id)
      (hnew : new.map (·.line) = [.inst (.lda (.imm k)), .inst (.sta (.mem p.selector.addr))])
      (hfresh : ∀ d ∈ new, next ≤ d.id) (hrest : Dispatched procedures next es ds) :
      Dispatched procedures next (e :: es) (new ++ e :: ds)

namespace Procedure.IsEdit

variable {p : Procedure} {id : EntryId} {edit edit' : Edit}

theorem mem_marks (h : p.IsEdit id edit) : id ∈ p.marks := by
  obtain ⟨-, hfinish, -⟩ | ⟨-, hcall, rfl, -⟩ := h
  · simp [marks, hfinish]
  · exact List.mem_append_right _ (List.mem_map_of_mem (List.mem_of_getElem? hcall))

/-- If the marks of a procedure are different lines, each has one edit. -/
theorem unique (hmarks : p.marks.Nodup) (h : p.IsEdit id edit) (h' : p.IsEdit id edit') :
    edit = edit' := by
  obtain ⟨-, hcalls, hdisjoint⟩ := List.nodup_append.1 hmarks
  have hne : p.finish = some id → ∀ {k : Nat} {c : Call}, p.calls[k]? = some c → c.entry ≠ id := by
    intro hfinish k c hk hid
    exact hdisjoint id (by simp [hfinish]) id
      (List.mem_map.2 ⟨c, List.mem_of_getElem? hk, hid⟩) rfl
  obtain ⟨-, hfinish, rfl⟩ | @⟨k, c, -, hk, hid, rfl⟩ := h
  · obtain ⟨-, -, rfl⟩ | ⟨-, hk', hid', -⟩ := h'
    · rfl
    · exact absurd hid' (hne hfinish hk')
  · obtain ⟨-, hfinish', -⟩ | @⟨k', c', -, hk', hid', rfl⟩ := h'
    · exact absurd hid (hne hfinish' hk)
    · have hentry : (p.calls.map (·.entry))[k]? = (p.calls.map (·.entry))[k']? := by
        rw [List.getElem?_map, List.getElem?_map, hk, hk', Option.map_some, Option.map_some, hid,
          hid']
      have hlt : k < (p.calls.map (·.entry)).length := by
        rw [List.length_map]
        exact (List.getElem?_eq_some_iff.1 hk).1
      rw [(List.getElem?_inj hlt hcalls).1 hentry]

end Procedure.IsEdit

namespace Generator.Marked

variable {g : Generator} (hg : g.Marked) {p q : Procedure} {id : EntryId} {edit edit' : Edit}

include hg

/-- Every mark has one edit. -/
theorem edit_unique (hp : p ∈ g.procedures) (hq : q ∈ g.procedures) (h : p.IsEdit id edit)
    (h' : q.IsEdit id edit') : edit = edit' := by
  obtain ⟨hnodup, hdisjoint⟩ := List.nodup_flatMap.1 hg.distinct
  obtain rfl : p = q := by
    by_contra hne
    have hsymm : Std.Symm (Function.onFun List.Disjoint Procedure.marks) :=
      ⟨fun _ _ hd _ ha hb => hd hb ha⟩
    exact hdisjoint.forall hp hq hne h.mem_marks h'.mem_marks
  exact h.unique (hnodup p hp) h'

theorem editOf?_eq_some_iff {edits : List (List (EntryId × Edit))}
    (hedits : g.procedures.mapM Gen.returnEdits = .ok edits) :
    Sequence.editOf? edits.flatten id = some edit ↔ ∃ p ∈ g.procedures, p.IsEdit id edit := by
  have hsome : ∀ {edit}, (∃ p ∈ g.procedures, p.IsEdit id edit) →
      Sequence.editOf? edits.flatten id = some edit := by
    rintro edit ⟨p, hp, hedit⟩
    refine Sequence.editOf?_eq_some ((Gen.mem_edits hedits).2 ⟨p, hp, hedit⟩) ?_
    rintro ⟨id', edit'⟩ hmem rfl
    obtain ⟨q, hq, hedit'⟩ := (Gen.mem_edits hedits).1 hmem
    exact hg.edit_unique hq hp hedit' hedit
  refine ⟨fun h => ?_, hsome⟩
  by_cases hex : ∃ edit', ∃ p ∈ g.procedures, p.IsEdit id edit'
  · obtain ⟨edit', hedit'⟩ := hex
    obtain rfl : edit' = edit := Option.some.inj ((hsome hedit').symm.trans h)
    exact hedit'
  · rw [Sequence.editOf?_eq_none] at h
    · cases h
    · rintro ⟨id', edit'⟩ hmem rfl
      exact hex ⟨edit', (Gen.mem_edits hedits).1 hmem⟩

/-- The edits make of the lines what they should. -/
theorem dispatched_edited {edits : List (List (EntryId × Edit))}
    (hedits : g.procedures.mapM Gen.returnEdits = .ok edits)
    (hlimit : ∀ p ∈ g.procedures, p.calls.length ≤ maxCalls) {next : EntryId}
    (hnext : g.code.next ≤ next) (es : List Entry) :
    Dispatched g.procedures g.code.next es
      (Sequence.edited (Sequence.editOf? edits.flatten) next es).1 := by
  induction es generalizing next with
  | nil => exact .nil
  | cons e es ih =>
    rw [Sequence.edited]
    have hfresh : ∀ {lines : List Line}, ∀ d ∈ Sequence.number next lines, g.code.next ≤ d.id :=
      fun d hd => Nat.le_trans hnext (Sequence.next_le_of_mem_number hd)
    cases hedit : Sequence.editOf? edits.flatten e.id with
    | none =>
      have hnone : ∀ p ∈ g.procedures, ∀ edit, ¬ p.IsEdit e.id edit := by
        intro p hp edit h
        rw [(hg.editOf?_eq_some_iff hedits).2 ⟨p, hp, h⟩] at hedit
        cases hedit
      refine .keep (fun p hp hcalls hfinish => ?_) (fun p hp hmany c hc hentry => ?_) (ih hnext)
      · exact hnone p hp _ (.finish hcalls hfinish rfl)
      · obtain ⟨k, hk⟩ := List.getElem?_of_mem hc
        exact hnone p hp _ (.call hmany hk hentry rfl)
    | some edit =>
      have hrest := fun count => ih (Nat.le_trans hnext (Nat.le_add_right next count))
      obtain ⟨p, hp, ⟨hcalls, hfinish, rfl⟩ | ⟨hmany, hcall, hentry, rfl⟩⟩ :=
        (hg.editOf?_eq_some_iff hedits).1 hedit
      · refine .finish hp hcalls hfinish ?_ hfresh (hrest _)
        rw [Sequence.map_line_number]
        exact p.returns_returnDispatch hcalls (hlimit p hp) (hg.selectors p hp)
      · refine .call hp hmany hcall hentry ?_ hfresh (hrest _)
        rw [Sequence.map_line_number]
        rfl

end Generator.Marked

/-! ### Dispatch -/

namespace Gen

variable {g : Generator}

/-- A procedure with too many calls is named, the first one if there are several. -/
theorem dispatch_refused {p : Procedure}
    (h : g.procedures.find? (fun p => maxCalls < p.calls.length) = some p) :
    dispatch g = .error (.fault (.source p.pos (.tooManyCalls p.name))) g := by
  rw [dispatch, bind_run (get_run g)]
  simp only [h]
  rfl

theorem dispatch_run {edits : List (List (EntryId × Edit))} {code : Sequence}
    (h : g.procedures.find? (fun p => maxCalls < p.calls.length) = none)
    (hedits : g.procedures.mapM returnEdits = .ok edits)
    (hcode : g.code.splice edits.flatten = .ok code) :
    dispatch g = .ok () { g with code := code } := by
  rw [dispatch, bind_run (get_run g)]
  simp only [h]
  refine updateCode_eq ?_
  rw [hedits]
  exact hcode

theorem dispatch_succeeds (hg : g.Marked)
    (hlimit : ∀ p ∈ g.procedures, p.calls.length ≤ maxCalls) :
    ∃ code, dispatch g = .ok () { g with code := code } ∧ (g.code.Sound → code.Sound)
      ∧ Dispatched g.procedures g.code.next g.code.items.toList code.items.toList := by
  obtain ⟨edits, hedits⟩ := exists_mapM_ok fun p hp => exists_returnEdits (hg.ended p hp)
  have hfind : g.procedures.find? (fun p => maxCalls < p.calls.length) = none :=
    List.find?_eq_none.2 fun p hp => by simpa using hlimit p hp
  have hsplice : g.code.splice edits.flatten = .ok _ := Sequence.splice_eq fun id edit hmem => by
    obtain ⟨p, hp, hedit⟩ := (mem_edits hedits).1 hmem
    exact hg.present id (List.mem_flatMap.2 ⟨p, hp, hedit.mem_marks⟩)
  exact ⟨_, dispatch_run hfind hedits hsplice, fun hsound => hsound.splice hsplice,
    hg.dispatched_edited hedits hlimit (Nat.le_refl _) _⟩

/-- The first of several procedures with too many calls. -/
theorem find?_tooManyCalls {procedures : List Procedure} {p : Procedure} :
    procedures.find? (fun p => maxCalls < p.calls.length) = some p ↔
      ∃ before after, procedures = before ++ p :: after
        ∧ (∀ q ∈ before, q.calls.length ≤ maxCalls) ∧ maxCalls < p.calls.length := by
  rw [List.find?_eq_some_iff_append]
  constructor
  · rintro ⟨hp, before, after, hprocedures, hbefore⟩
    exact ⟨before, after, hprocedures, by simpa using hbefore, by simpa using hp⟩
  · rintro ⟨before, after, hprocedures, hbefore, hp⟩
    exact ⟨by simpa using hp, before, after, hprocedures, by simpa using hbefore⟩

end Gen

/-- Calls can be made to return unless a procedure has more than sixteen of them.  Then the first
such procedure is named, and nothing changes.  Otherwise the ends of procedures become returns, the
calls get their numbers, and all other lines stay. -/
theorem dispatch_exact {g : Generator} (hg : g.Marked) :
    (∀ stop g', Gen.dispatch g = .error stop g' ↔ g' = g
      ∧ ∃ before p after, g.procedures = before ++ p :: after
        ∧ (∀ q ∈ before, q.calls.length ≤ 16) ∧ 16 < p.calls.length
        ∧ stop = .fault (.source p.pos (.tooManyCalls p.name)))
    ∧ ((∀ p ∈ g.procedures, p.calls.length ≤ 16) →
      ∃ code, Gen.dispatch g = .ok () { g with code := code } ∧ (g.code.Sound → code.Sound)
        ∧ Dispatched g.procedures g.code.next g.code.items.toList code.items.toList) := by
  refine ⟨fun stop g' => ⟨fun h => ?_, ?_⟩, Gen.dispatch_succeeds hg⟩
  · cases hfind : g.procedures.find? (fun p => maxCalls < p.calls.length) with
    | none =>
      obtain ⟨code, hcode, -⟩ := Gen.dispatch_succeeds hg fun p hp => by
        simpa using List.find?_eq_none.1 hfind p hp
      cases hcode.symm.trans h
    | some p =>
      obtain ⟨before, after, hprocedures, hbefore, hp⟩ := Gen.find?_tooManyCalls.1 hfind
      obtain ⟨rfl, rfl⟩ := EStateM.Result.error.inj ((Gen.dispatch_refused hfind).symm.trans h)
      exact ⟨rfl, before, p, after, hprocedures, hbefore, hp, rfl⟩
  · rintro ⟨rfl, before, p, after, hprocedures, hbefore, hp, rfl⟩
    exact Gen.dispatch_refused (Gen.find?_tooManyCalls.2 ⟨before, after, hprocedures, hbefore, hp⟩)

/-- A procedure that is called twice. -/
theorem dispatch_exact_of_two_calls :
    let p : Procedure := ⟨"p", "@proc_p", ⟨"$procret_p", .nibble, 7, "", false⟩,
      [⟨2, "@label0"⟩, ⟨4, "@label1"⟩], some 1, ⟨"main", 1⟩⟩
    let g : Generator := { procedures := [p], code := .ofLines [.label "@proc_p", .inst .nop,
      jump .jmp "@proc_p", .label "@label0", jump .jmp "@proc_p", .label "@label1"] }
    g.Marked ∧ (∀ q ∈ g.procedures, q.calls.length ≤ 16)
      ∧ ∃ code, Gen.dispatch g = .ok () { g with code := code } ∧ (g.code.Sound → code.Sound)
        ∧ Dispatched g.procedures g.code.next g.code.items.toList code.items.toList := by
  intro p g
  have hg : g.Marked :=
    { ended := by simp [g, p]
      distinct := by decide
      present := by decide
      selectors := by simp [g, p, Var.Placed, scalarSpace]; decide }
  have hlimit : ∀ q ∈ g.procedures, q.calls.length ≤ 16 := by decide
  exact ⟨hg, hlimit, (dispatch_exact hg).2 hlimit⟩

end NibblePascal
