import NibblePascal.Proofs.Assembly.Stored
import NibblePascal.Proofs.Machine.Confined
import NibblePascal.Proofs.Machine.Stretch
import NibblePascal.Proofs.Simulation.Store

/-!
# What a run within guarded code writes to

Guarded code selects a bank by its place, and it says which cells it writes to while that is bank 0.
So a run that keeps to the code changes no other cell, at no step: `Territory.Sealed.sameBut`.
-/

namespace NibblePascal

namespace Territory

/-- Guarded code at a place of an image, whose jumps lead to its own labels or out of it. -/
structure Sealed (T : Territory) (image : Image) (ρ : String → Nat) (lo : Nat) (lines : List Line) :
    Prop where
  placed : T.Placed
  keeps : T.Keeps lines
  holds : image.Holds ρ lo lines
  jumps : ∀ t ∈ jumpTargets lines, t ∈ labelNames lines ∨ ¬ Within lo lines (ρ t)

/-- The selected bank is that of the place in the code. -/
def Stands (T : Territory) (lo : Nat) (lines : List Line) (s : State) : Prop :=
  ∃ before after, lines = before ++ after ∧ s.pc = lo + codeSize before ∧ T.Guards 0 before s.bank

variable {T : Territory} {image : Image} {ρ : String → Nat} {lo n : Nat} {lines : List Line}
  {P : Nat → Prop} {s t : State}

theorem stands_start (hpc : s.pc = lo) (hbank : s.bank = 0) : T.Stands lo lines s :=
  ⟨[], lines, rfl, hpc, hbank.symm⟩

/-- The next instruction, which is allowed. -/
theorem Sealed.next_inst (h : T.Sealed image ρ lo lines) (hs : T.Stands lo lines s)
    (hin : Within lo lines s.pc) :
    ∃ before i after, lines = before ++ .inst i :: after ∧ s.pc = lo + codeSize before
      ∧ T.Guards 0 before s.bank ∧ T.Allows s.bank (.inst i)
      ∧ image.ops[s.pc]? = some ⟨i, Image.destination ρ i⟩ := by
  obtain ⟨before, rest, rfl, hpc, hbefore⟩ := hs
  have hlt := hin.2
  rw [codeSize_append, hpc] at hlt
  have hrest := ((Image.holds_append lo before rest).1 h.holds).2
  rw [← hpc] at hrest
  obtain ⟨skip, i, after, rfl, hskip, hop⟩ := hrest.exists_inst (k := 0) (by omega)
  obtain ⟨mid, hmid, hguards⟩ := guards_append.1 h.keeps
  obtain rfl := hmid.unique hbefore
  obtain ⟨bank, hbank, hi, -⟩ := guards_append.1 hguards
  obtain rfl := hbank.bank_eq hskip
  refine ⟨before ++ skip, i, after, by simp, ?_, guards_append.2 ⟨_, hbefore, hbank⟩, hi, hop⟩
  rw [codeSize_append, hskip, Nat.add_zero, hpc]

/-- A label of the code stands where bank 0 is selected. -/
theorem Sealed.stands_of_label (h : T.Sealed image ρ lo lines) {name : String}
    (hname : name ∈ labelNames lines) (hpc : s.pc = ρ name) (hbank : s.bank = 0) :
    T.Stands lo lines s := by
  obtain ⟨l, hmem, hlabel⟩ := List.mem_filterMap.1 hname
  obtain ⟨before, after, rfl⟩ := List.append_of_mem hmem
  cases l with
  | label other =>
    obtain rfl : other = name := Option.some.inj hlabel
    obtain ⟨mid, hmid, rfl, -⟩ := guards_append.1 h.keeps
    have hplace := ((Image.holds_append lo before _).1 h.holds).2.1
    exact ⟨before, _, rfl, hpc.trans hplace, hbank ▸ hmid⟩
  | inst | comment | release | endProc | raw => cases hlabel

/-- A step within the code comes to a place of it or leaves it, and changes no cell outside `P`. -/
theorem Sealed.step (h : T.Sealed image ρ lo lines) (hw : WritesIn P lines)
    (hs : T.Stands lo lines s) (hin : Within lo lines s.pc) (hstep : image.step? s = some t) :
    (T.Stands lo lines t ∨ ¬ Within lo lines t.pc) ∧ s.mem.SameBut P t.mem := by
  obtain ⟨before, i, after, hlines, hpc, hbefore, hi, hop⟩ := h.next_inst hs hin
  obtain ⟨op, hop', he⟩ := Image.exists_executed hstep
  obtain rfl : op = _ := Option.some.inj (hop'.symm.trans hop)
  have hmem : .inst i ∈ lines := by simp [hlines]
  constructor
  · obtain hnext | ⟨⟨kind, target, hjump⟩, htarget⟩ := he.pc
    · refine .inl ⟨before ++ [.inst i], after, by simp [hlines], ?_, ?_⟩
      · rw [hnext, codeSize_append, hpc]
        rfl
      · exact guards_append.2 ⟨s.bank, hbefore, hi, he.bank.symm⟩
    · obtain rfl : i = .jump kind target := hjump
      have hbank : t.bank = 0 := he.bank.trans hi
      obtain hlabel | hout := h.jumps target (List.mem_filterMap.2 ⟨_, hmem, rfl⟩)
      · exact .inl (h.stands_of_label hlabel htarget hbank)
      · exact .inr (htarget ▸ hout)
  · intro addr haddr
    refine he.read_eq fun hstored => haddr ?_
    have hwrites := hw _ hmem
    cases i with
    | sta dest =>
      cases dest with
      | mem x =>
        have hdirect : ({ s with pc := s.pc + 1 } : State).direct x = x :=
          h.placed.direct_eq hi.1 hi.2
        obtain rfl : x = addr := by
          have heq : some (({ s with pc := s.pc + 1 } : State).direct x) = some addr := hstored
          rw [hdirect] at heq
          exact Option.some.inj heq
        exact hwrites
      | banked x => exact hwrites.elim
    | _ => cases hstored

/-- A run within the code changes no cell outside `P`. -/
theorem Sealed.sameBut (h : T.Sealed image ρ lo lines) (hw : WritesIn P lines)
    (hs : T.Stands lo lines s) (hstays : image.Stays (Within lo lines) n s t) :
    s.mem.SameBut P t.mem := by
  induction n generalizing s with
  | zero =>
    obtain rfl := Image.stays_zero.1 hstays
    exact .refl _ _
  | succ n ih =>
    obtain ⟨hin, u, hstep, hut⟩ := Image.stays_succ.1 hstays
    obtain ⟨hu | hout, hsame⟩ := h.step hw hs hin hstep
    · exact hsame.trans (ih hu hut)
    · -- The run has left the code, so there is no further step.
      cases n with
      | zero =>
        obtain rfl := Image.stays_zero.1 hut
        exact hsame
      | succ n => exact absurd (Image.stays_succ.1 hut).1 hout

end Territory

/-- A run within lines that write nowhere keeps the memory. -/
theorem Image.Holds.mem_eq {image : Image} {ρ : String → Nat} {lo n : Nat} {lines : List Line}
    {s t : State} (hold : image.Holds ρ lo lines) (hwrites : WritesIn (fun _ => False) lines)
    (h : image.Stays (Within lo lines) n s t) : t.mem = s.mem := by
  induction n generalizing s with
  | zero =>
    obtain rfl := stays_zero.1 h
    rfl
  | succ n ih =>
    obtain ⟨hin, u, hstep, hut⟩ := stays_succ.1 h
    rw [ih hut]
    obtain ⟨i, hi, hop⟩ := hold.exists_inst_of_within hin
    obtain ⟨op, hop', he⟩ := exists_executed hstep
    obtain rfl : op = _ := Option.some.inj (hop'.symm.trans hop)
    obtain ⟨hmem, -⟩ | ⟨addr, hstored, -⟩ := he.mem
    · exact hmem
    · have hnone : (Line.inst i).WritesIn fun _ => False := hwrites _ hi
      cases i with
      | sta dest => cases dest <;> exact hnone.elim
      | _ => cases hstored

end NibblePascal
