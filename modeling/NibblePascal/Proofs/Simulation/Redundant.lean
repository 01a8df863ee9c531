import NibblePascal.Proofs.Assembly.Redundant
import NibblePascal.Proofs.Assembly.Tidied
import NibblePascal.Proofs.Machine.Straight
import NibblePascal.Proofs.Machine.Stuttering

/-!
# Runs without redundant lines

The pass over redundant lines keeps what code does, whatever jumps and loops it has: a reload
finds the cell's content in the accumulator, for no jump leads between it and the store, and an
idle jump leads to the next line in any case.

* `Settled before s`: if the nearest line before is a store, its cell holds the accumulator;
* `Shadows lines kept s s'`: the machines that run the code and what is left of it stand at the
  same line;
* `stutters_of_reduced`: so they go on.
-/

namespace NibblePascal

open Image

/-- The accumulator is still in the cell that the lines before, the nearest first, stored into
last. -/
def Settled (before : List Line) (s : State) : Prop :=
  ∀ addr, visible? before = some (.inst (.sta (.mem addr))) →
    s.mem.read? (s.direct addr) = some s.acc

/-- The first machine has come to the end of `a`, and the second one, in the same state otherwise,
to the end of what is left of `a`. -/
inductive Shadows (lines kept : List Line) : State → State → Prop
  | intro {a b ka kb : List Line} {s : State} (hlines : lines = a ++ b) (hkept : kept = ka ++ kb)
      (h : Reduced ka.reverse b kb) (hs : Settled ka.reverse s) (hpc : s.pc = codeSize a) :
      Shadows lines kept s { s with pc := codeSize ka }

namespace Settled

variable {before : List Line} {l : Line} {s t : State}

theorem of_transparent (h : Settled before s) (hl : l.isTransparent = true) (hmem : t.mem = s.mem)
    (hbank : t.bank = s.bank) (hacc : t.acc = s.acc) : Settled (l :: before) t := by
  intro addr hfind
  rw [visible?_cons_transparent hl] at hfind
  rw [hmem, hacc, State.direct, hbank]
  exact h addr hfind

theorem of_visible (hl : l.isTransparent = false) (hstored : storedCell? l = none) :
    Settled (l :: before) s := by
  intro addr hfind
  rw [visible?_cons hl] at hfind
  cases hfind
  cases hstored

/-- A line that is no instruction. -/
theorem of_inst? (h : Settled before s) (hl : l.inst? = none) : Settled (l :: before) s := by
  cases l with
  | inst i => cases hl
  | label | raw => exact of_visible rfl rfl
  | comment | release | endProc => exact h.of_transparent rfl rfl rfl rfl

/-- An instruction that is no jump. -/
theorem of_exec {i : Instruction} (h : Settled before s) (hexec : s.exec ⟨i, 0⟩ = .next t) :
    Settled (.inst i :: before) t := by
  cases i with
  | sta dest =>
    cases dest with
    | banked a => exact of_visible rfl rfl
    | mem a =>
      intro addr hfind
      rw [visible?_cons rfl] at hfind
      cases hfind
      simp only [State.exec, State.storeTo] at hexec
      split at hexec
      case isTrue hlt =>
        cases hexec
        exact (Memory.read?_of_lt hlt).trans (congrArg some (Memory.read_write_same _ _ hlt))
      case isFalse => cases hexec
  | stc value =>
    cases hexec
    exact h.of_transparent rfl rfl rfl rfl
  | _ => exact of_visible rfl rfl

end Settled

section

variable {image image' : Image} {ρ ρ' : String → Nat} {lines kept a b ka kb : List Line} {s : State}

/-- The place of a label that is next but for comments. -/
theorem Image.Holds.next_label {pc : Nat} {target : String} (h : image.Holds ρ pc lines)
    (hnext : lines.find? (!·.isComment) = some (.label target)) : ρ target = pc := by
  induction lines with
  | nil => cases hnext
  | cons l lines ih =>
    cases l with
    | label name =>
      obtain rfl : name = target := by simpa [Line.isComment] using hnext
      exact h.1
    | comment | release | endProc => exact ih h hnext
    | inst | raw => simp [Line.isComment] at hnext

/-- The places of a label in the code and in what is left of it. -/
theorem Shadows.of_label {name : String} (hred : Reduced [] lines kept)
    (hold : image.Holds ρ 0 lines) (hold' : image'.Holds ρ' 0 kept)
    (hname : name ∈ labelNames lines) (s : State) : Shadows lines kept { s with pc := ρ name } { s with pc := ρ' name } := by
  obtain ⟨l, hmem, hlabel⟩ := List.mem_filterMap.1 hname
  obtain rfl : l = .label name := by
    cases l with
    | label => exact congrArg Line.label (Option.some.inj hlabel)
    | inst | comment | release | endProc | raw => cases hlabel
  obtain ⟨a, b, rfl⟩ := List.append_of_mem hmem
  obtain ⟨ka, kb, rfl, hb⟩ := hred.split
  cases hb with
  | @keep _ _ kb _ _ hb =>
    have hplace : ρ name = codeSize a := by simpa using ((holds_append 0 a _).1 hold).2.1
    have hplace' : ρ' name = codeSize (ka ++ [.label name]) := by
      simpa using ((holds_append 0 ka _).1 hold').2.1
    have hlines : a ++ .label name :: b = (a ++ [.label name]) ++ b := by simp
    have hkept : ka ++ .label name :: kb = (ka ++ [.label name]) ++ kb := by simp
    rw [hplace']
    refine .intro hlines hkept (by simpa using hb) ?_ (by simp [hplace])
    rw [List.reverse_concat]
    exact .of_visible rfl rfl

/-- Both machines execute an instruction that is kept. -/
theorem Shadows.meets_inst {i : Instruction} (hclosed : Closed (a ++ .inst i :: b))
    (hred : Reduced [] (a ++ .inst i :: b) (ka ++ .inst i :: kb))
    (hold : image.Holds ρ 0 (a ++ .inst i :: b)) (hold' : image'.Holds ρ' 0 (ka ++ .inst i :: kb))
    (h : Reduced (.inst i :: ka.reverse) b kb) (hs : Settled ka.reverse s)
    (hpc : s.pc = codeSize a) :
    image.Meets image' (Shadows (a ++ .inst i :: b) (ka ++ .inst i :: kb)) s
      { s with pc := codeSize ka } := by
  have hop : image.ops[s.pc]? = some ⟨i, destination ρ i⟩ := by
    rw [hpc, ← Nat.zero_add (codeSize a)]
    exact ((holds_append 0 a (.inst i :: b)).1 hold).2.1
  have hop' : image'.ops[codeSize ka]? = some ⟨i, destination ρ' i⟩ := by
    rw [← Nat.zero_add (codeSize ka)]
    exact ((holds_append 0 ka (.inst i :: kb)).1 hold').2.1
  -- behind the instruction they stand at the same line again
  have hnext {t : State} (ht : Settled (.inst i :: ka.reverse) t) :
      Shadows (a ++ .inst i :: b) (ka ++ .inst i :: kb) { t with pc := s.pc + 1 }
        { t with pc := codeSize ka + 1 } := by
    have hrev : (ka ++ [Line.inst i]).reverse = .inst i :: ka.reverse := List.reverse_concat
    have hsize : codeSize (ka ++ [.inst i]) = codeSize ka + 1 := codeSize_append ka _
    rw [← hsize]
    exact .intro (s := { t with pc := s.pc + 1 }) (List.append_cons a _ b)
      (List.append_cons ka _ kb) (by rwa [hrev]) (by rw [hrev]; exact ht) (by rw [codeSize_append, ← hpc]; rfl)
  refine .both hop hop' ?_
  by_cases hjump : ∃ kind target, i = .jump kind target
  · obtain ⟨kind, target, rfl⟩ := hjump
    have htarget : target ∈ labelNames (a ++ .inst (.jump kind target) :: b) :=
      hclosed.jumps target (List.mem_filterMap.2 ⟨_, List.mem_append_cons_self, rfl⟩)
    simp only [State.exec]
    by_cases htaken : kind.taken s.flags = true
    · simp only [htaken, if_true]
      exact .next (.of_label hred hold hold' htarget s)
    · simp only [htaken]
      exact .next (hnext (.of_visible rfl rfl))
  · have hi : ∀ kind name, i ≠ .jump kind name := fun kind name h => hjump ⟨kind, name, h⟩
    rw [State.exec_atPc s (s.pc + 1) (destination ρ i) hi]
    show Effect.Alike _ _ (({ s with pc := codeSize ka + 1 } : State).exec ⟨i, destination ρ' i⟩)
    rw [State.exec_atPc s (codeSize ka + 1) (destination ρ' i) hi]
    cases hexec : s.exec ⟨i, 0⟩ with
    | next t => exact .next (hnext (hs.of_exec hexec))
    | halt t => exact .halt { t with pc := s.pc + 1 } (codeSize ka + 1)
    | crash => exact .crash

/-- An instruction that is taken out leads to the next line and changes nothing else. -/
theorem Shadows.step_alone {i : Instruction} {target : Nat} (hlines : lines = a ++ .inst i :: b)
    (hkept : kept = ka ++ kb) (h : Reduced ka.reverse b kb) (hs : Settled ka.reverse s)
    (hpc : s.pc = codeSize a) (hop : image.ops[s.pc]? = some ⟨i, target⟩)
    (hexec : ({ s with pc := s.pc + 1 } : State).exec ⟨i, target⟩
      = .next { s with pc := s.pc + 1 }) :
    ∃ t, image.step? s = some t ∧ s.pc < t.pc
      ∧ Shadows lines kept t { s with pc := codeSize ka } := by
  refine ⟨{ s with pc := s.pc + 1 }, by simp only [step?, hop, hexec], Nat.lt_succ_self _, ?_⟩
  exact .intro (s := { s with pc := s.pc + 1 }) (hlines.trans (List.append_cons a _ b)) hkept h hs
    (by rw [codeSize_append, ← hpc]; rfl)

/-- From the same line the machines go down to the next instruction. -/
theorem Shadows.next (hclosed : Closed lines) (hred : Reduced [] lines kept)
    (hold : image.Holds ρ 0 lines) (hold' : image'.Holds ρ' 0 kept)
    (hend : image.ops[codeSize lines]? = none) (hend' : image'.ops[codeSize kept]? = none)
    (hlines : lines = a ++ b) (hkept : kept = ka ++ kb) (h : Reduced ka.reverse b kb)
    (hs : Settled ka.reverse s) (hpc : s.pc = codeSize a) :
    image.Meets image' (Shadows lines kept) s { s with pc := codeSize ka }
      ∨ ∃ t, image.step? s = some t ∧ s.pc < t.pc
        ∧ Shadows lines kept t { s with pc := codeSize ka } := by
  induction b generalizing a ka kb with
  | nil =>
    cases h
    rw [List.append_nil] at hlines hkept
    refine .inl (.ended ?_ ?_)
    · rwa [hpc, ← hlines]
    · rwa [← hkept]
  | cons l b ih =>
    have hop {i : Instruction} (hi : l = .inst i) :
        image.ops[s.pc]? = some ⟨i, destination ρ i⟩ := by
      rw [hlines, hi] at hold
      rw [hpc, ← Nat.zero_add (codeSize a)]
      exact ((holds_append 0 a (.inst i :: b)).1 hold).2.1
    cases h with
    | @keep _ _ kb _ _ h =>
      cases hl : l.inst? with
      | some i =>
        obtain rfl : l = .inst i := by cases l <;> cases hl; rfl
        subst hlines hkept
        exact .inl (Shadows.meets_inst hclosed hred hold hold' h hs hpc)
      | none =>
        have hsize : codeSize [l] = 0 := by cases l <;> cases hl <;> rfl
        have hrev : (ka ++ [l]).reverse = l :: ka.reverse := List.reverse_concat
        have := ih (hlines.trans (List.append_cons a _ b)) (hkept.trans (List.append_cons ka _ kb))
          (by rwa [hrev]) (by rw [hrev]; exact hs.of_inst? hl)
          (by rw [codeSize_append, hsize]; exact hpc)
        rwa [codeSize_append, hsize] at this
    | @reload _ _ _ addr hbefore h =>
      refine .inr (Shadows.step_alone hlines hkept h hs hpc (hop rfl) ?_)
      have hcell : s.mem.read? (({ s with pc := s.pc + 1 } : State).direct addr) = some s.acc :=
        hs addr hbefore
      simp only [State.exec, State.loadFrom, hcell]
    | @idle _ _ _ kind target hafter h =>
      refine .inr (Shadows.step_alone hlines hkept h hs hpc (hop rfl) ?_)
      have hplace : ρ target = s.pc + 1 := by
        rw [hlines, List.append_cons, holds_append] at hold
        rw [hold.2.next_label hafter, codeSize_append, hpc, Nat.zero_add]
        rfl
      simp only [State.exec, destination, hplace, ite_self]

/-- The machines that run the code and what is left of it. -/
theorem stutters_of_reduced (hclosed : Closed lines) (hred : Reduced [] lines kept)
    (hold : image.Holds ρ 0 lines) (hold' : image'.Holds ρ' 0 kept)
    (hend : image.ops[codeSize lines]? = none) (hend' : image'.ops[codeSize kept]? = none) :
    image.Stutters image' (codeSize lines) (Shadows lines kept) where
  same := by
    rintro s _ ⟨⟩
    rfl
  bounded := by
    rintro s _ ⟨hlines, -, -, -, hpc⟩
    rw [hpc, hlines, codeSize_append]
    exact Nat.le_add_right _ _
  next := by
    rintro s _ ⟨hlines, hkept, h, hs, hpc⟩
    exact Shadows.next hclosed hred hold hold' hend hend' hlines hkept h hs hpc

end

/-- The pass over redundant lines keeps the runs of code that can be run, from every state at its
beginning: the code stops if and only if what is left of it does, which then takes no more steps
and stops in the same state but for the program counter. -/
theorem dropRedundant_preserves_runs {lines : List Line} (h : Closed lines) :
    ∃ image image', ofLines? lines = some image ∧ ofLines? (dropRedundant lines) = some image'
      ∧ ∀ s : State, s.pc = 0 →
        ((∃ t, image'.Halts s t) ↔ ∃ t, image.Halts s t)
        ∧ ∀ limit t spare, image.run limit s = .halted t spare →
          ∃ pc spare', image'.run limit s = .halted { t with pc := pc } spare'
            ∧ spare ≤ spare' := by
  obtain ⟨image, himage, hold, hend⟩ := h.exists_image
  obtain ⟨image', himage', hold', hend'⟩ := (h.tidied (tidied_dropRedundant lines)).exists_image
  have hred := reduced_dropRedundant lines
  have hstutters := stutters_of_reduced h hred hold hold' hend hend'
  refine ⟨image, image', himage, himage', fun s hpc => ?_⟩
  have hstart : Shadows lines (dropRedundant lines) s s := by
    have := Shadows.intro (a := []) rfl (List.nil_append _).symm hred (s := s) nofun hpc
    rwa [codeSize_nil, ← hpc] at this
  refine ⟨⟨?_, ?_⟩, fun limit t spare hrun => hstutters.run_of_halted hstart hrun⟩
  · rintro ⟨t, limit, spare, hrun⟩
    exact hstutters.halts_of_halted hstart hrun
  · rintro ⟨t, limit, spare, hrun⟩
    obtain ⟨pc, spare', hrun', -⟩ := hstutters.run_of_halted hstart hrun
    exact ⟨_, limit, spare', hrun'⟩

/-- A loop with a reload behind a store and a jump to the line below it. -/
theorem dropRedundant_preserves_runs_loop :
    let start : List Line := [.label "a", .inst (.lda (.imm 3)), .inst (.sta (.mem 7)),
      .release 5, .inst (.stc 1)]
    let finish : List Line := [.inst (.alu .shl), .inst (.jump .jb "a")]
    let lines := start ++ .inst (.lda (.mem 7)) :: finish ++
      [.inst (.jump .jz "b"), .comment "; end", .label "b"]
    Closed lines ∧ dropRedundant lines = start ++ finish ++ [.comment "; end", .label "b"]
      ∧ ∃ image image', ofLines? lines = some image ∧ ofLines? (dropRedundant lines) = some image'
        ∧ ∀ s : State, s.pc = 0 →
          ((∃ t, image'.Halts s t) ↔ ∃ t, image.Halts s t)
          ∧ ∀ limit t spare, image.run limit s = .halted t spare →
            ∃ pc spare', image'.run limit s = .halted { t with pc := pc } spare'
              ∧ spare ≤ spare' := by
  intro start finish lines
  have hclosed : Closed lines := ⟨by decide, by decide, by decide⟩
  exact ⟨hclosed, by decide, dropRedundant_preserves_runs hclosed⟩

end NibblePascal
