import NibblePascal.Proofs.Generation.Clean
import NibblePascal.Proofs.Generation.Invariant

/-!
# Generation finishes

Code generation can make all the edits of the code that it wants, and leaves no jump without its
target when it gets to the end.

* `Block.clean`, `Outline.clean_dispatch` and `Program.clean`: no edit fails;
* `Program.targeted_of_generate`: every jump of a finished program has its target.
-/

namespace NibblePascal

/-! ### Jumps have their targets -/

/-- Every jump has its target. -/
def Targeted (lines : List Line) : Prop := ∀ t ∈ jumpTargets lines, t ≠ ""

namespace Targeted

variable {a b lines : List Line} {own : Nat → Prop}

@[simp] theorem append : Targeted (a ++ b) ↔ Targeted a ∧ Targeted b := by
  simp [Targeted, or_imp, forall_and]

@[simp] theorem nil : Targeted [] := nofun

@[simp] theorem label (name : String) : Targeted (.label name :: lines) ↔ Targeted lines := by
  simp [Targeted]

@[simp] theorem jump (kind : JumpKind) (target : String) :
    Targeted (Code.jump kind target :: lines) ↔ target ≠ "" ∧ Targeted lines := by
  simp [Targeted]

theorem of_jumpTargets_eq_nil (h : jumpTargets lines = []) : Targeted lines := by
  simp [Targeted, h]

end Targeted

theorem Code.labelName_ne_empty (n : Nat) : labelName n ≠ "" := by
  intro h
  have := congrArg String.toList h
  simp [labelName] at this

theorem Gen.procedureLabel_ne_empty (p : String) : procedureLabel p ≠ "" := by
  intro h
  have := congrArg String.toList h
  simp [procedureLabel] at this

theorem Labelled.targeted {own : Nat → Prop} {lines : List Line}
    (h : Labelled (· ≠ "") own lines) : Targeted lines := by
  intro t ht
  obtain hmem | hne := h.closed t ht
  · obtain ⟨ns, hns, -, -⟩ := h.numbers
    rw [hns] at hmem
    obtain ⟨n, -, rfl⟩ := List.mem_map.1 hmem
    exact Code.labelName_ne_empty n
  · exact hne

theorem Piece.targeted_test {own : Nat → Prop} {t : List TestLine} (yes no : Nat)
    (h : Labelled (· ≠ "") own (Code.inner t)) : Targeted ((Piece.test yes no t).map plain) := by
  rw [test, map_plain_ofLines]
  exact (Code.labelled_closeTest h (Code.labelName_ne_empty _) (Code.labelName_ne_empty _)).targeted

/-- A line of inline assembly is no jump. -/
theorem Scope.target?_inlineLine {sc : Scope} {text : Token} {l : Line}
    (h : sc.inlineLine text = .ok l) : l.target? = none := by
  have hl := inst?_inlineLine h
  cases l <;> first | rfl | cases hl

open Piece in
theorem Stmt.Coded.targeted {sc : Scope} {s s' : Stock} {st : Stmt} {code : List Piece}
    (h : Stmt.Coded sc s st code s') : Targeted (code.map plain) := by
  have hname := Code.labelName_ne_empty
  have hsimple : ∀ {s s' st code}, Stmt.Coded sc s st code s' → st.asmFree = true →
      Targeted (code.map plain) := fun h hst =>
    (h.labelled hst (· ≠ "") fun p _ => Gen.procedureLabel_ne_empty p).2.targeted
  have htest : ∀ {s s' c t}, Cond.Coded sc none s c t s' → ∀ yes no,
      Targeted ((Piece.test yes no t).map plain) := fun hc yes no =>
    targeted_test yes no (hc.labelled (· ≠ "")).2
  induction h with
  | seq _ _ ihf ihr =>
    rw [List.map_append, Targeted.append]
    exact ⟨ihf, ihr⟩
  | block _ ih => exact ih
  | asm h =>
    rw [map_plain_ofLines]
    refine .of_jumpTargets_eq_nil (List.filterMap_eq_nil_iff.2 ?_)
    induction h with
    | nil => exact nofun
    | cons hl _ ih =>
      intro l' hl'
      obtain rfl | hl' := List.mem_cons.1 hl'
      exacts [Scope.target?_inlineLine hl, ih l' hl']
  | ifThen hc _ ih =>
    simp [Piece.ifThen, mark, plain, Code.label, htest hc, ih]
  | ifElse hc _ _ ihy ihn =>
    simp [Piece.ifElse, mark, goto, plain, Code.label, htest hc, ihy, ihn, hname]
  | whileDo hc _ ih =>
    simp [Piece.whileDo, mark, goto, plain, Code.label, htest hc, ih, hname]
  | repeatUntil _ hc ih => simp [Piece.repeatUntil, mark, plain, Code.label, htest hc, ih]
  | @forDo s _ _ s₃ s₄ _ down _ _ _ v _ _ limit _ _ _ hx hf hl ht hw _ ih =>
    have hcoded : Stmt.Coded sc s (.forDo _ down _ _ .passed .skip) _ _ :=
      .forDo hx hf hl ht hw .skip
    have hstart := hsimple hcoded rfl
    have hdone := targeted_test (s₃.labels + 3) (s₃.labels + 2)
      (Code.labelled_relationTest (· ≠ "") .eq v limit s₄.labels)
    simp only [Piece.forLoop, mark, goto, plain, Code.label, List.map_append, List.map_cons,
      List.map_nil, Targeted.append, Targeted.label, Targeted.jump] at hstart ⊢
    grind
  | skip => exact .of_jumpTargets_eq_nil rfl
  | nop => exact .of_jumpTargets_eq_nil rfl
  | assign hx hv => exact hsimple (.assign hx hv) rfl
  | setElement hx hi hv hc ho => exact hsimple (.setElement hx hi hv hc ho) rfl
  | fillList hx hl => exact hsimple (s := s) (.fillList hx hl) rfl
  | fillText hx hu hc hl => exact hsimple (s := s) (.fillText hx hu hc hl) rfl
  | copyArray hx hy hw hl hs => exact hsimple (s := s) (.copyArray hx hy hw hl hs) rfl
  | call h => exact hsimple (.call h) rfl
  | step hx => exact hsimple (s := s) (.step hx) rfl
  | output hv => exact hsimple (.output hv) rfl
  | input hx => exact hsimple (s := s) (.input hx) rfl

theorem Block.Coded.targeted {label name : String} {o o' : Outline} {b : Block}
    {code : List Piece} (h : Block.Coded label name o b code o') :
    Targeted (code.map Piece.plain) := by
  induction h with
  | code h =>
    rw [List.map_cons, Piece.plain, Targeted.label]
    exact h.targeted
  | scalar _ _ _ ih | array _ _ _ ih => exact ih
  | procedure _ _ _ _ _ ihb ihr =>
    rw [List.map_append, Targeted.append]
    exact ⟨ihb, ihr⟩

/-- Every jump of a finished program has its target. -/
theorem Program.targeted_of_generate {p : Program} {u : Unit} {g : Generator}
    (h : p.generate {} = .ok u g) : Targeted g.code.lines := by
  obtain ⟨code, o, hcode, -, -, hlines, -⟩ := lines_of_generate h
  rw [hlines]
  intro t ht
  obtain ht | ht := Outline.mem_jumpTargets_lines ht
  · rw [pieces, List.map_append, Piece.map_plain_ofLines, jumpTargets_append, List.mem_append] at ht
    obtain ht | ht := ht
    · have hmain : jumpTargets Code.prologue = ["@main"] := rfl
      rw [hmain, List.mem_singleton] at ht
      rw [ht]
      decide
    · exact hcode.targeted t ht
  · obtain ⟨ns, hns, -, -⟩ := hcode.numbered.2
    rw [pieces, Piece.rets_append, Piece.rets_ofLines, List.nil_append, hns] at ht
    obtain ⟨n, -, rfl⟩ := List.mem_map.1 ht
    exact Code.labelName_ne_empty n

theorem Sequence.pendingPosition?_eq_none {s : Sequence} (h : Targeted s.lines) :
    s.pendingPosition? = none := by
  rw [pendingPosition?, Array.findIdx?_eq_none_iff]
  intro e he
  have hmem : e.line ∈ s.lines := List.mem_map_of_mem (Array.mem_toList_iff.2 he)
  cases hline : e.line with
  | inst i =>
    cases i with
    | jump kind target =>
      have htarget : target ∈ jumpTargets s.lines := List.mem_filterMap.2 ⟨_, hmem, by rw [hline]; rfl⟩
      have hne : target.isEmpty = false := by simpa using h target htarget
      exact hne
    | _ => rfl
  | _ => rfl

/-! ### Blocks -/

namespace Gen

theorem tame_declareVariable (block : String) (x : Token) (width : Width) (len : Option Nat) :
    (declareVariable block x width len).Tame := by
  have hdeclare (symbol : Symbol) : (declare x symbol).Tame := by
    refine .get fun g => ?_
    split
    exacts [tame_set _, tame_complain _ _]
  refine (tame_locate _).bind fun _ => ?_
  cases len with
  | none | some => exact (tame_allocate _).bind fun _ => hdeclare _

theorem tame_declareProcedure (p : Token) : (declareProcedure p).Tame := by
  refine .get fun g => ?_
  dsimp only
  split
  · exact (tame_set _).bind fun _ => (tame_locate _).bind fun _ =>
      .bind ((tame_allocate _).bind fun _ => (tame_putProcedure _).bind fun _ => tame_pure _)
        fun _ => tame_pure ()
  · exact tame_complain _ _

theorem clean_inScope {g : Generator} {x : Gen Unit}
    (h : x.Clean { g with scope := g.scope.enter }) : (inScope x).Clean g := by
  refine .after (.of_eq rfl) (P := fun _ g' => g' = { g with scope := g.scope.enter })
    (fun he => ?_) ?_
  · cases he
    rfl
  · rintro _ _ rfl
    exact .after h id fun _ _ _ => .of_eq rfl

theorem tame_endProcedure (name : String) : (endProcedure name).Tame := by
  refine (tame_procedure? name).bind fun found => ?_
  cases found with
  | none => exact tame_pure ()
  | some p => exact fun _ => .of_eq rfl

end Gen

/-- The edits of a block can be made. -/
theorem Block.clean (b : Block) {label name : String} {o : Outline} {code : List Piece}
    (ho : o.Sound code) : (b.generate label name).Clean (o.generator code) := by
  induction b generalizing label name o code with
  | fault why => exact Gen.tame_fail why _
  | code st =>
    refine .after (Gen.tame_place _ _) Gen.outline_place ?_
    rintro _ _ rfl
    exact st.clean ho.distinct
  | declare x width len rest ih =>
    have hclean := Gen.tame_declareVariable name x width len (o.generator code)
    cases len with
    | none =>
      refine .after hclean Gen.of_declareScalar ?_
      rintro _ _ ⟨v, memory, sc, -, hs, rfl⟩
      exact ih (ho.declare hs)
    | some len =>
      refine .after hclean Gen.of_declareArray ?_
      rintro _ _ ⟨a, memory, sc, -, hs, rfl⟩
      exact ih (ho.declare hs)
  | procedure p body close rest ihb ihr =>
    refine .after (Gen.tame_declareProcedure p _) (Gen.of_declareProcedure ho) ?_
    rintro _ _ ⟨selector, memory, sc, hn, hs, -, rfl⟩
    have hopen := ho.openBody memory (q := ⟨p.text, selector, p.pos⟩) hn hs
    refine .after (Gen.clean_inScope (ihb hopen)) Gen.of_inScope ?_
    rintro _ _ ⟨_, _, hgen, rfl⟩
    obtain ⟨code₁, o₁, hcode₁, rfl⟩ := Block.coded_of_generate hopen hgen
    refine .after (Gen.tame_pass close _) Gen.of_pass ?_
    rintro _ _ ⟨-, rfl⟩
    have hq : p.text ∈ o₁.headings.map (·.name) :=
      List.mem_map_of_mem (f := (·.name)) (hcode₁.headings_prefix.subset
        (by simp [Outline.openBody] : (⟨p.text, selector, p.pos⟩ : Heading) ∈ _))
    have hsound := hcode₁.sound hopen
    refine .after (Gen.tame_endProcedure _ _)
      (Gen.of_endProcedure (o := o₁.leave) hsound.distinct hq) ?_
    rintro _ _ rfl
    exact ihr (hsound.closeBody hq)

/-! ### Programs -/

theorem Piece.exists_finish? {code : List Piece} {name : String} (h : name ∈ finishes code) :
    ∃ i, finish? code name = some i := by
  obtain ⟨piece, hmem, hp⟩ := List.mem_filterMap.1 h
  cases piece with
  | finish p =>
    obtain rfl : p = name := Option.some.inj hp
    obtain ⟨i, hi⟩ := List.getElem?_of_mem hmem
    have hat : i ∈ code.zipIdx.filterMap (finishAt p) :=
      List.mem_filterMap.2 ⟨(.finish p, i), List.mem_zipIdx_iff_getElem?.2 hi, if_pos rfl⟩
    exact ⟨_, List.getLast?_eq_some_getLast (List.ne_nil_of_mem hat)⟩
  | line | call => cases hp

namespace Outline

variable {o : Outline} {code : List Piece}

theorem lt_length_of_isEdit {id : EntryId} {edit : Edit} (h : o.IsEdit code id edit) :
    id < code.length := by
  obtain ⟨q, -, -, ⟨hf, -⟩ | ⟨-, k, c, hk, rfl, -⟩⟩ := h
  · exact (List.getElem?_eq_some_iff.1 (Piece.getElem?_of_finish? hf)).1
  · exact (List.getElem?_eq_some_iff.1 (Piece.mem_calls.1 (List.mem_of_getElem? hk))).1

/-- Calls of procedures that end can be made to return. -/
theorem clean_dispatch (hends : ∀ q ∈ o.headings, q.name ∈ Piece.finishes code) :
    Gen.dispatch.Clean (o.generator code) := by
  refine .get ?_
  dsimp only
  split
  · exact Gen.tame_complain _ _ _
  · obtain ⟨edits, hedits⟩ : ∃ edits,
        (o.headings.map (·.procedure code)).mapM Gen.returnEdits = .ok edits :=
      exists_mapM_ok fun p hp => by
        obtain ⟨q, hq, rfl⟩ := List.mem_map.1 hp
        exact Gen.exists_returnEdits fun _ => Piece.exists_finish? (hends q hq)
    obtain ⟨seq, hseq⟩ : ∃ seq, (Sequence.ofLines (code.map Piece.plain)).splice edits.flatten
        = .ok seq := ⟨_, Sequence.splice_eq fun id edit he => Sequence.mem_ids_ofLines
      (by simpa using lt_length_of_isEdit ((mem_edits hedits).1 he))⟩
    have hdone : ((o.headings.map (·.procedure code)).mapM Gen.returnEdits >>= fun edits =>
        (o.generator code).code.splice edits.flatten) = .ok seq := by
      rw [hedits]
      exact hseq
    exact .of_eq (Gen.updateCode_eq hdone)

end Outline

/-- All edits of the code of a program can be made. -/
theorem Program.clean (p : Program) : p.generate.Clean {} := by
  refine .after (Gen.tame_emit _ _) Gen.of_emit ?_
  rintro _ _ rfl
  refine .after (Gen.clean_inScope (p.block.clean start_sound)) Gen.of_inScope ?_
  rintro _ _ ⟨_, _, hblock, rfl⟩
  obtain ⟨code, o, hcode, rfl⟩ := Block.coded_of_generate start_sound hblock
  refine .after (Gen.tame_pass p.close _) Gen.of_pass ?_
  rintro _ _ ⟨-, rfl⟩
  refine Outline.clean_dispatch (o := o.leave) fun q hq => ?_
  obtain ⟨hs, hheadings, hperm⟩ := hcode.finishes_perm
  have hq : q ∈ hs := by simpa [hheadings, Outline.start, Outline.leave] using hq
  rw [Piece.finishes_append, List.mem_append]
  exact .inr (hperm.mem_iff.2 (List.mem_map_of_mem hq))

end NibblePascal
