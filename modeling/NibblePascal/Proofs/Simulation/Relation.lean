import NibblePascal.Proofs.Generation.Condition
import NibblePascal.Proofs.Generation.Labels
import NibblePascal.Proofs.Machine.Exits
import NibblePascal.Proofs.Machine.Written

/-!
# Relations as generated

The generator puts the test of a relation into the code with its exits open.  Once they are resolved
to two labels, the lines of the test decide the relation in whatever image they stand: the run takes
a jump to the label of the outcome and has not changed the memory.
-/

namespace NibblePascal

open Code

/-! ### What is generated -/

namespace Gen

variable {code : Gen Branch} {g : Generator} {a b v : Var} {rel : Relation} {yes no : String}

/-- The computation puts a test behind the code of `g`.  When its exits are resolved to `yes` and
`no`, whatever has been put behind it by then, its lines are `lines`. -/
def Resolves (code : Gen Branch) (g : Generator) (yes no : String) (lines : List Line) : Prop :=
  ∃ br g₁, code g = .ok br g₁ ∧ ∀ more, ∃ g₂,
    (do emit more; resolveBoth br yes no : Gen Unit) g₁ = .ok () g₂
      ∧ g₂.code = g.code.append (lines ++ more)

theorem Resolves.of_emitTest (hg : g.code.Sound) {test : List TestLine} {s : Stock}
    (h : code g = emitTest {} test (g.grow [] s)) :
    code.Resolves g yes no (closeTest yes no test) := by
  refine ⟨_, _, h.trans (emitTest_run ..), fun more =>
    ⟨g.grow (closeTest yes no test ++ more) s, ?_, rfl⟩⟩
  rw [bind_run (emit_run ..)]
  exact resolveBoth_run hg test [] more s yes no

/-- The lines of the test are determined. -/
theorem Resolves.unique {lines lines' : List Line} (h : code.Resolves g yes no lines)
    (h' : code.Resolves g yes no lines') : lines = lines' := by
  obtain ⟨br, g₁, hcode, hmore⟩ := h
  obtain ⟨br', g₁', hcode', hmore'⟩ := h'
  obtain ⟨rfl, rfl⟩ := EStateM.Result.ok.inj (hcode.symm.trans hcode')
  obtain ⟨g₂, hg₂, hlines⟩ := hmore []
  obtain ⟨g₂', hg₂', hlines'⟩ := hmore' []
  obtain ⟨-, rfl⟩ := EStateM.Result.ok.inj (hg₂.symm.trans hg₂')
  have := congrArg Sequence.lines (hlines.symm.trans hlines')
  simpa using this

theorem relation_run (h : a.width = b.width) :
    relation a b rel g = emitTest {} (relationTest rel a b g.labels)
      (g.grow [] (g.stock.skip (relationLabels rel a))) := by
  rw [relation, if_neg (not_not_intro h)]
  rfl

/-- Scalars of different widths are not compared, and nothing is generated. -/
theorem relation_refused (h : a.width ≠ b.width) :
    relation a b rel g =
      .error (.fault (.source g.memory.here (.conditionTypesDiffer a.width b.width))) g := by
  rw [relation, if_pos h]
  rfl

end Gen

/-! ### What the code does -/

namespace Image

variable {image : Image} {ρ : String → Nat} {lines : List Line} {yes no : String} {s : State}

/-- The machine stands at the head of the lines, and the labels `yes` and `no` are not among
theirs. -/
structure AtTest (image : Image) (ρ : String → Nat) (lines : List Line) (yes no : String)
    (s : State) : Prop extends image.AtHead ρ lines s where
  outer : ∀ x, x = yes ∨ x = no → x ∉ labelNames lines

/-- The first jump to one of the two labels is the one for the outcome `b`, and it finds the memory
unchanged. -/
def Chooses (image : Image) (ρ : String → Nat) (lines : List Line) (yes no : String) (b : Bool)
    (s : State) : Prop :=
  ∃ t, image.Quits ρ lines (fun x => x = yes ∨ x = no) (if b then yes else no) s t ∧ s.Same t

/-- The lines decide whether `truth` holds. -/
structure Decides (image : Image) (ρ : String → Nat) (lines : List Line) (yes no : String)
    (truth : Bool) (s : State) : Prop where
  /-- The run comes to the label of the truth value and not to the other one. -/
  chooses : ∀ b, image.Chooses ρ lines yes no b s ↔ b = truth
  /-- It does not come to the end of the lines before. -/
  stays : ∀ n t, image.Lingers lines (fun x => x = yes ∨ x = no) n s t → Within s.pc lines t.pc
  /-- At no step does it change the memory. -/
  keeps : ∀ n t, image.Runs lines n s t → t.mem = s.mem

variable {test : List TestLine} {truth : Bool}

/-- A test that comes to the label of the truth value, wherever it stands, and writes nowhere. -/
theorem AtTest.decides (h : image.AtTest ρ (closeTest yes no test) yes no s) (hne : yes ≠ no)
    (hlabels : ∀ outer, ∃ own, Labelled outer own (inner test))
    (hwrites : WritesIn (fun _ => False) (closeTest yes no test))
    (hadvances : ∀ (image : Image) (σ : String → Nat), image.Holds σ s.pc (closeTest yes no test) →
      image.Advances s.point { s.point with pc := σ (if truth then yes else no) }) :
    image.Decides ρ (closeTest yes no test) yes no truth s := by
  obtain ⟨own, hown⟩ := hlabels fun x => x = yes ∨ x = no
  have hclosed := (labelled_closeTest hown (.inl rfl) (.inr rfl)).closed
  obtain ⟨t, hquits, hbank, hmem, hout, hinp⟩ := Quits.of_advances (P := (· = s.mem)) h.holds
    hclosed h.outer (label_of_outcome truth yes no) h.bank
    fun image σ hold => ⟨s.mem, rfl, hadvances image σ hold⟩
  constructor
  case chooses =>
    intro b
    constructor
    · rintro ⟨u, hu, -⟩
      have := hu.unique hquits (label_of_outcome b yes no) (label_of_outcome truth yes no)
      cases b <;> cases truth <;> simp_all
    · rintro rfl
      exact ⟨t, hquits, hbank.trans h.bank.symm, hmem, hout, hinp⟩
  case stays => exact fun n u hu => hquits.within (label_of_outcome truth yes no) hu
  case keeps => exact fun n u hu => h.holds.mem_eq hwrites hu

/-- The test of a relation decides it. -/
theorem decides_relationTest {a b : Var} {rel : Relation} {n : Nat}
    (h : image.AtTest ρ (closeTest yes no (relationTest rel a b n)) yes no s) (hne : yes ≠ no)
    (ha : a.Placed) (hb : b.Placed) (hab : a.width = b.width) :
    image.Decides ρ (closeTest yes no (relationTest rel a b n)) yes no
      (rel.holds (s.mem.get a) (s.mem.get b)) s :=
  h.decides hne (fun outer => ⟨_, labelled_relationTest outer rel a b n⟩)
    (writesIn_relationTest rel n)
    fun _ _ hold => advances_relationTest h.nibbles ha hb (congrArg Width.cells hab) hold

/-- The test whether a scalar is not zero decides that. -/
theorem decides_nonzeroTest {v : Var}
    (h : image.AtTest ρ (closeTest yes no (nonzeroTest v)) yes no s) (hne : yes ≠ no)
    (hv : v.Placed) :
    image.Decides ρ (closeTest yes no (nonzeroTest v)) yes no (s.mem.get v != 0) s := by
  refine h.decides hne (fun outer => ⟨fun _ => False, (allStraight_inner_nonzeroTest v).labelled⟩)
    writesIn_nonzeroTest fun image σ hold => ?_
  have hadvances := advances_nonzeroTest (p := s.point) h.nibbles hv hold
  by_cases hzero : s.mem.get v = 0 <;> simpa [State.point, hzero] using hadvances

end Image

/-- For scalars of one width, the code that is generated for a relation comes to the label of its
truth value, and the code that looks whether the first scalar is not zero does what the relations
`>` and `#` do with a second one that holds zero.  The scalars may be the same or have cells in
common.  Scalars of different widths are refused. -/
theorem relations_decided {g : Generator} (hg : g.code.Sound) {a b : Var} (ha : a.Placed)
    (hb : b.Placed) (rel : Relation) {yes no : String} (hne : yes ≠ no) :
    (a.width = b.width → ∃ lines zeros, (Gen.relation a b rel).Resolves g yes no lines
      ∧ (Gen.nonzero a).Resolves g yes no zeros
      ∧ (∀ (image : Image) (ρ : String → Nat) (s : State), image.AtTest ρ lines yes no s →
        image.Decides ρ lines yes no (rel.holds (s.mem.get a) (s.mem.get b)) s)
      ∧ (∀ (image : Image) (ρ : String → Nat) (s : State), image.AtTest ρ zeros yes no s →
        image.Decides ρ zeros yes no (s.mem.get a != 0) s)
      ∧ (rel = .gt ∨ rel = .ne → ∀ (image image' : Image) (ρ ρ' : String → Nat) (s s' : State),
        image.AtTest ρ zeros yes no s → image'.AtTest ρ' lines yes no s' → s.mem = s'.mem →
        s.mem.get b = 0 → ∀ outcome, image.Chooses ρ zeros yes no outcome s ↔
          image'.Chooses ρ' lines yes no outcome s'))
    ∧ (a.width ≠ b.width → Gen.relation a b rel g =
      .error (.fault (.source g.memory.here (.conditionTypesDiffer a.width b.width))) g) := by
  refine ⟨fun hab => ?_, Gen.relation_refused⟩
  refine ⟨_, _, .of_emitTest hg (Gen.relation_run hab), .of_emitTest hg (s := g.stock) rfl,
    fun image ρ s h => Image.decides_relationTest h hne ha hb hab,
    fun image ρ s h => Image.decides_nonzeroTest h hne ha, ?_⟩
  intro hrel image image' ρ ρ' s s' h h' hmem hzero outcome
  have hholds : rel.holds (s.mem.get a) 0 = (s.mem.get a != 0) := by
    -- No number is below zero, so being greater is being different.
    rcases hrel with rfl | rfl
    · cases s.mem.get a <;> simp [Relation.holds]
    · rfl
  rw [(Image.decides_nonzeroTest h hne ha).chooses,
    (Image.decides_relationTest h' hne ha hb hab).chooses, ← hmem, hzero, hholds]

/-- Two words that differ in their lowest cells only, compared in an image of nothing else: the
comparison goes down through all cells. -/
theorem relations_decided_of_words :
    let a : Var := ⟨"a", .word, 0, "", false⟩
    let b : Var := ⟨"b", .word, 4092, "", false⟩
    let g : Generator := { code := .ofLines prologue, labels := 1 }
    let m := (Memory.blank.set a 0xFADE).set b 0xFADC
    g.code.Sound ∧ a.Placed ∧ b.Placed ∧ "@yes" ≠ "@no" ∧ a.width = b.width ∧ m.Nibbles
      ∧ ∃ (lines : List Line) (image : Image) (ρ : String → Nat),
        (Gen.relation a b .ge).Resolves g "@yes" "@no" lines
        ∧ image.AtTest ρ lines "@yes" "@no" { mem := m }
        ∧ image.Decides ρ lines "@yes" "@no" true { mem := m } := by
  intro a b g m
  have hg : g.code.Sound := Sequence.sound_empty.append prologue
  have ha : a.Placed := show 4 ≤ 4096 by decide
  have hb : b.Placed := Nat.le_refl 4096
  have hne : "@yes" ≠ "@no" := by decide
  have hm : m.Nibbles := Memory.nibbles_set (Memory.nibbles_set Memory.nibbles_blank)
  have hgeta : m.get a = 0xFADE :=
    (Memory.get_set_of_apart (.inl (by decide))).trans (Memory.get_set_same ha)
  have hgetb : m.get b = 0xFADC := Memory.get_set_same hb
  obtain ⟨lines, zeros, hlines, -, hdecides, -⟩ :=
    (relations_decided hg ha hb .ge hne).1 (rfl : a.width = b.width)
  obtain rfl := hlines.unique (.of_emitTest hg (Gen.relation_run rfl))
  -- The labels are put behind the lines.
  have hclosed : Image.Closed (closeTest "@yes" "@no" (relationTest .ge a b g.labels)
      ++ [.label "@yes", .label "@no"]) := ⟨by decide, by decide, by decide⟩
  obtain ⟨image, -, hholds, -⟩ := hclosed.exists_image
  have hat : image.AtTest _ (closeTest "@yes" "@no" (relationTest .ge a b g.labels)) "@yes" "@no"
      { mem := m } :=
    ⟨⟨((Image.holds_append ..).1 hholds).1, rfl, hm⟩, fun _ _ => List.not_mem_nil⟩
  have hdecided := hdecides _ _ _ hat
  have htruth : Relation.ge.holds (m.get a) (m.get b) = true := by rw [hgeta, hgetb]; decide
  rw [htruth] at hdecided
  exact ⟨hg, ha, hb, hne, rfl, hm, _, image, _, hlines, hat, hdecided⟩

end NibblePascal
