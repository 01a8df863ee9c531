import NibblePascal.Proofs.Except
import NibblePascal.Proofs.Fragments.Test
import NibblePascal.Proofs.Generation.Generator

/-!
# Generated conditions

The code of a condition is a test with its exits still open.  `Generator.holding` is a
generator whose code is known line by line: the numbers of the pending jumps are then the
positions of the exits, and `resolveBoth` closes the test.  The result is
`Cond.coded_of_generate`.
-/

namespace NibblePascal

/-- The exits of a test whose first line has number `pos`. -/
def Branch.ofTest (pos : Nat) (test : List TestLine) : Branch :=
  ⟨Code.exitIds true pos test, Code.exitIds false pos test⟩

theorem Branch.ofTest_append_of_lines (pos : Nat) (lines : List Line) (test : List TestLine) :
    ofTest pos (lines.map .line ++ test) = ofTest (pos + lines.length) test := by
  simp [ofTest, Code.exitIds_append]

theorem Branch.ofTest_append_lines (pos : Nat) (test : List TestLine) (lines : List Line) :
    ofTest pos (test ++ lines.map .line) = ofTest pos test := by
  simp [ofTest, Code.exitIds_append]

namespace Generator

/-- The generator with the given lines and stock. -/
def holding (g : Generator) (lines : List Line) (s : Stock) : Generator :=
  { g with code := .ofLines lines, memory := s.memory, labels := s.labels }

variable (g : Generator) (lines : List Line) (s : Stock)

@[simp] theorem scope_holding : (g.holding lines s).scope = g.scope := rfl

@[simp] theorem stock_holding : (g.holding lines s).stock = s := rfl

/-- The lines are all that has been put behind no code. -/
theorem holding_eq_grow :
    g.holding lines s = ({ g with code := {} } : Generator).grow lines s := rfl

@[simp] theorem grow_holding (lines' : List Line) (s' : Stock) :
    (g.holding lines s).grow lines' s' = g.holding (lines ++ lines') s' := by
  simp [grow, holding]

end Generator

namespace Gen

variable {g g' : Generator} {a b : List Line} {s : Stock} {test : List TestLine}

theorem of_updateCode {f : Sequence → Except Defect Sequence} {u : Unit}
    (h : updateCode f g = .ok u g') :
    ∃ code, f g.code = .ok code ∧ g' = { g with code := code } := by
  obtain ⟨_, _, hget, h⟩ := of_bind h
  cases hget
  cases hf : f g.code with
  | error why => simp only [hf] at h; cases h
  | ok code =>
    simp only [hf] at h
    cases h
    exact ⟨code, rfl, rfl⟩

/-- An exit is put behind the code. -/
theorem addExit_run (g : Generator) (a : List Line) (s : Stock) (br : Branch) (outcome : Bool)
    (kind : JumpKind) :
    addExit br outcome kind (g.grow a s) =
      .ok ⟨br.onTrue ++ Code.exitIds true (g.code.next + a.length) [.exit outcome kind],
          br.onFalse ++ Code.exitIds false (g.code.next + a.length) [.exit outcome kind]⟩
        (g.grow (a ++ [Code.jump kind ""]) s) := by
  have hentry : emitEntry (Code.jump kind "") (g.grow a s) =
      .ok (g.code.append a).next (g.grow (a ++ [Code.jump kind ""]) s) := by
    rw [← Generator.grow_grow]
    rfl
  rw [addExit, bind_run hentry]
  cases outcome <;> simp [Code.exitIds] <;> rfl

/-- A test is put behind the code, with its exits open. -/
theorem emitTest_run (g : Generator) (a : List Line) (s : Stock) (br : Branch)
    (test : List TestLine) :
    emitTest br test (g.grow a s) =
      .ok ⟨br.onTrue ++ Code.exitIds true (g.code.next + a.length) test,
          br.onFalse ++ Code.exitIds false (g.code.next + a.length) test⟩
        (g.grow (a ++ Code.closeTest "" "" test) s) := by
  induction test generalizing a br with
  | nil => simp [emitTest, Code.exitIds]; rfl
  | cons l test ih =>
    cases l with
    | line l =>
      rw [emitTest, bind_run (emit_run ..), ih]
      simp [Code.exitIds, Nat.add_assoc]
    | exit outcome kind =>
      rw [emitTest, bind_run (addExit_run ..), ih]
      cases outcome <;> simp [Code.exitIds, Nat.add_assoc]

theorem of_addExit {br br' : Branch} {outcome : Bool} {kind : JumpKind}
    (h : addExit br outcome kind (g.holding a s) = .ok br' g') :
    br' = ⟨br.onTrue ++ Code.exitIds true a.length [.exit outcome kind],
        br.onFalse ++ Code.exitIds false a.length [.exit outcome kind]⟩
      ∧ g' = g.holding (a ++ [Code.jump kind ""]) s := by
  rw [Generator.holding_eq_grow, addExit_run] at h
  cases h
  simp [Generator.holding_eq_grow]

/-- A test is put behind the code. -/
theorem of_emitTest_new {br : Branch} (h : emitTest {} test (g.holding a s) = .ok br g') :
    br = .ofTest a.length test ∧ g' = g.holding (a ++ Code.closeTest "" "" test) s := by
  rw [Generator.holding_eq_grow, emitTest_run] at h
  cases h
  simp [Generator.holding_eq_grow, Branch.ofTest]

theorem updateCode_eq {f : Sequence → Except Defect Sequence} {code : Sequence}
    (h : f g.code = .ok code) : updateCode f g = .ok () { g with code := code } := by
  simp only [updateCode, bind, EStateM.bind, get_run, h]
  rfl

section Sound

variable (hg : g.code.Sound)

include hg

/-- The exits that stand for truth can be given their target. -/
theorem resolve_true_run (test : List TestLine) (a b : List Line) (s : Stock) (no label : String)
    (onFalse : List EntryId) :
    resolve ⟨Code.exitIds true (g.code.next + a.length) test, onFalse⟩ true label
      (g.grow (a ++ (Code.closeTest "" no test ++ b)) s) =
      .ok ⟨[], onFalse⟩ (g.grow (a ++ (Code.closeTest label no test ++ b)) s) := by
  rw [resolve, if_pos rfl, bind_run (updateCode_eq (hg.patchAll_true no label a b test))]
  rfl

/-- The exits that stand for failure can be given their target. -/
theorem resolve_false_run (test : List TestLine) (a b : List Line) (s : Stock) (yes label : String)
    (onTrue : List EntryId) :
    resolve ⟨onTrue, Code.exitIds false (g.code.next + a.length) test⟩ false label
      (g.grow (a ++ (Code.closeTest yes "" test ++ b)) s) =
      .ok ⟨onTrue, []⟩ (g.grow (a ++ (Code.closeTest yes label test ++ b)) s) := by
  rw [resolve, if_neg Bool.false_ne_true,
    bind_run (updateCode_eq (hg.patchAll_false yes label a b test))]
  rfl

/-- The exits of a test can be given their targets. -/
theorem resolveBoth_run (test : List TestLine) (a b : List Line) (s : Stock) (yes no : String) :
    resolveBoth (.ofTest (g.code.next + a.length) test) yes no
      (g.grow (a ++ (Code.closeTest "" "" test ++ b)) s) =
      .ok () (g.grow (a ++ (Code.closeTest yes no test ++ b)) s) := by
  rw [resolveBoth, Branch.ofTest, bind_run (resolve_true_run hg ..),
    bind_run (resolve_false_run hg ..)]
  rfl

end Sound

/-- The exits that stand for truth can be given their target. -/
theorem resolve_true (a b : List Line) (no label : String) (onFalse : List EntryId) :
    resolve ⟨Code.exitIds true a.length test, onFalse⟩ true label
      (g.holding (a ++ (Code.closeTest "" no test ++ b)) s) =
      .ok ⟨[], onFalse⟩ (g.holding (a ++ (Code.closeTest label no test ++ b)) s) := by
  have := resolve_true_run (g := { g with code := {} }) Sequence.sound_empty test a b s no label
    onFalse
  simpa [Generator.holding_eq_grow] using this

/-- The exits that stand for failure can be given their target. -/
theorem resolve_false (a b : List Line) (yes label : String) (onTrue : List EntryId) :
    resolve ⟨onTrue, Code.exitIds false a.length test⟩ false label
      (g.holding (a ++ (Code.closeTest yes "" test ++ b)) s) =
      .ok ⟨onTrue, []⟩ (g.holding (a ++ (Code.closeTest yes label test ++ b)) s) := by
  have := resolve_false_run (g := { g with code := {} }) Sequence.sound_empty test a b s yes label
    onTrue
  simpa [Generator.holding_eq_grow] using this

/-- The exits of a test can be given their targets. -/
theorem resolveBoth_eq (a b : List Line) (yes no : String) :
    resolveBoth (.ofTest a.length test) yes no
      (g.holding (a ++ (Code.closeTest "" "" test ++ b)) s) =
      .ok () (g.holding (a ++ (Code.closeTest yes no test ++ b)) s) := by
  have := resolveBoth_run (g := { g with code := {} }) Sequence.sound_empty test a b s yes no
  simpa [Generator.holding_eq_grow] using this

theorem of_resolveBoth {yes no : String} {u : Unit}
    (h : resolveBoth (.ofTest a.length test) yes no
      (g.holding (a ++ (Code.closeTest "" "" test ++ b)) s) = .ok u g') :
    g' = g.holding (a ++ (Code.closeTest yes no test ++ b)) s := by
  rw [resolveBoth_eq] at h
  cases h
  rfl

/-- The exits of a test at the end of the code. -/
theorem of_resolveBoth_last {yes no : String} {u : Unit}
    (h : resolveBoth (.ofTest a.length test) yes no
      (g.holding (a ++ Code.closeTest "" "" test) s) = .ok u g') :
    g' = g.holding (a ++ Code.closeTest yes no test) s := by
  have := of_resolveBoth (b := []) (g := g) (u := u) (by simpa using h)
  simpa using this

theorem of_merge {yes no : String} {br : Branch}
    (h : merge (.ofTest a.length test) yes no
      (g.holding (a ++ Code.closeTest "" "" test) s) = .ok br g') :
    br = .ofTest a.length (Code.merged yes no test)
      ∧ g' = g.holding (a ++ Code.closeTest "" "" (Code.merged yes no test)) s := by
  obtain ⟨_, _, rfl, h⟩ := after of_resolveBoth_last h
  obtain ⟨_, _, rfl, h⟩ := after of_place h
  rw [Generator.grow_holding] at h
  obtain ⟨_, _, ⟨rfl, rfl⟩, h⟩ := after of_addExit h
  obtain ⟨_, _, rfl, h⟩ := after of_place h
  rw [Generator.grow_holding] at h
  obtain ⟨rfl, rfl⟩ := of_addExit h
  constructor
  · simp [Code.merged, Branch.ofTest, Code.exitIds_append, Code.exitIds, Nat.add_assoc]
  · simp [Code.merged]

/-- A computation generates tests. -/
def Tests (g : Generator) (code : Gen Branch) (R : Stock → List TestLine → Stock → Prop) : Prop :=
  ∀ {a : List Line} {s : Stock} {br : Branch} {g' : Generator},
    code (g.holding a s) = .ok br g' →
      ∃ test s', R s test s' ∧ br = .ofTest a.length test
        ∧ g' = g.holding (a ++ Code.closeTest "" "" test) s'

variable {code : Gen Branch} {R : Stock → List TestLine → Stock → Prop} {br : Branch}

theorem of_relation {u v : Var} {rel : Relation}
    (h : relation u v rel (g.holding a s) = .ok br g') :
    u.width = v.width ∧ br = .ofTest a.length (Code.relationTest rel u v s.labels)
      ∧ g' = g.holding (a ++ Code.closeTest "" "" (Code.relationTest rel u v s.labels))
        (s.skip (Code.relationLabels rel u)) := by
  unfold relation at h
  by_cases hw : u.width = v.width
  · simp only [hw, ne_eq, not_true_eq_false, if_false] at h
    obtain ⟨_, _, ⟨rfl, rfl⟩, h⟩ := after of_newLabels h
    rw [Generator.grow_holding, List.append_nil] at h
    exact ⟨hw, of_emitTest_new h⟩
  · simp only [hw, ne_eq, not_false_eq_true, if_true] at h
    obtain ⟨_, _, -, h⟩ := of_bind h
    obtain ⟨_, _, hc, -⟩ := of_bind h
    exact (not_fail hc).elim

/-! ### Chains of alternatives -/

theorem of_alternative {chain : Chain} (hcode : Tests g code R)
    (h : alternative ⟨.ofTest a.length chain.test, chain.yes, chain.no⟩ code
      (g.holding (a ++ Code.closeTest "" "" chain.test) s) = .ok br g') :
    ∃ test s', R (s.skip 1) test s'
      ∧ br = .ofTest a.length (Code.continued chain.yes (Code.labelName s.labels)
        (Code.labelName s.labels) chain.test ++ test)
      ∧ g' = g.holding (a ++ Code.closeTest "" "" (Code.continued chain.yes
        (Code.labelName s.labels) (Code.labelName s.labels) chain.test ++ test)) s' := by
  obtain ⟨_, _, ⟨rfl, rfl⟩, h⟩ := after of_newLabel h
  obtain ⟨_, _, rfl, h⟩ := after of_place h
  simp only [Generator.grow_holding, Generator.stock_holding, List.append_nil,
    List.append_assoc] at h
  obtain ⟨_, _, ⟨test, s', hR, rfl, rfl⟩, h⟩ := after hcode h
  simp only [List.append_assoc] at h
  obtain ⟨_, _, rfl, h⟩ := after of_resolveBoth h
  obtain ⟨rfl, rfl⟩ := of_pure h
  refine ⟨test, s', hR, ?_, ?_⟩
  · rw [Code.continued, Branch.ofTest_append_of_lines]
    simp
  · simp [Code.continued]

theorem of_conjunction {lhs rhs : Gen Branch} {R' : Stock → List TestLine → Stock → Prop}
    (hl : Tests g lhs R) (hr : Tests g rhs R')
    (h : conjunction lhs rhs (g.holding a s) = .ok br g') :
    ∃ test₁ s₁ test₂ s₂, R s test₁ s₁ ∧ R' (s₁.skip 3) test₂ s₂
      ∧ br = .ofTest a.length (Code.continued (Code.labelName (s₁.labels + 2))
          (Code.labelName (s₁.labels + 1)) (Code.labelName (s₁.labels + 2)) test₁
        ++ Code.merged (Code.labelName s₁.labels) (Code.labelName (s₁.labels + 1)) test₂)
      ∧ g' = g.holding (a ++ Code.closeTest "" "" (Code.continued (Code.labelName (s₁.labels + 2))
          (Code.labelName (s₁.labels + 1)) (Code.labelName (s₁.labels + 2)) test₁
        ++ Code.merged (Code.labelName s₁.labels) (Code.labelName (s₁.labels + 1)) test₂)) s₂ := by
  obtain ⟨_, _, ⟨test₁, s₁, hR, rfl, rfl⟩, h⟩ := after hl h
  obtain ⟨_, _, ⟨rfl, rfl⟩, h⟩ := after of_newLabel h
  obtain ⟨_, _, ⟨rfl, rfl⟩, h⟩ := after of_newLabel h
  obtain ⟨_, _, ⟨rfl, rfl⟩, h⟩ := after of_newLabel h
  obtain ⟨_, _, rfl, h⟩ := after of_place h
  simp only [Generator.grow_holding, Generator.stock_holding, List.append_nil,
    List.append_assoc, Stock.skip_skip, Stock.labels_skip, Nat.reduceAdd] at h
  obtain ⟨_, _, ⟨test₂, s₂, hR', rfl, rfl⟩, h⟩ := after hr h
  simp only [List.append_assoc] at h
  obtain ⟨_, _, rfl, h⟩ := after of_resolveBoth h
  obtain ⟨rfl, rfl⟩ := of_merge (g := g) (s := s₂) (a := a ++ (Code.closeTest
    (Code.labelName (s₁.labels + 2)) (Code.labelName (s₁.labels + 1)) test₁
      ++ [.label (Code.labelName (s₁.labels + 2))])) (by simpa using h)
  refine ⟨test₁, s₁, test₂, s₂, hR, hR', ?_, ?_⟩
  · rw [Code.continued, Branch.ofTest_append_of_lines]
    simp
  · simp [Code.continued]

theorem of_lastAlternative {chain : Chain} (hcode : Tests g code R)
    (h : lastAlternative (some ⟨.ofTest a.length chain.test, chain.yes, chain.no⟩) code
      (g.holding (a ++ Code.closeTest "" "" chain.test) s) = .ok br g') :
    ∃ test s', R (s.skip 1) test s'
      ∧ br = .ofTest a.length (Code.continued chain.yes (Code.labelName s.labels)
        (Code.labelName s.labels) chain.test ++ Code.merged chain.yes chain.no test)
      ∧ g' = g.holding (a ++ Code.closeTest "" "" (Code.continued chain.yes
        (Code.labelName s.labels) (Code.labelName s.labels) chain.test
        ++ Code.merged chain.yes chain.no test)) s' := by
  obtain ⟨_, _, ⟨test, s', hR, rfl, rfl⟩, h⟩ := after (of_alternative hcode) h
  rw [Code.continued, Branch.ofTest_append_of_lines] at h
  obtain ⟨rfl, rfl⟩ := of_merge (g := g) (s := s') (a := a ++ (Code.closeTest chain.yes
    (Code.labelName s.labels) chain.test ++ [.label (Code.labelName s.labels)]))
    (by simpa using h)
  refine ⟨test, s', hR, ?_, ?_⟩
  · rw [Code.continued, Branch.ofTest_append_of_lines]
    simp
  · simp [Code.continued]

end Gen

/-! ### Conditions -/

namespace Cond

variable {g : Generator} {c : Cond}

/-- A condition in no chain generates its test. -/
def Generates (g : Generator) (c : Cond) : Prop :=
  Gen.Tests g (c.generateIn none) fun s test s' => Cond.Coded g.scope none s c test s'

/-- A condition that continues a chain generates the rest of the chain. -/
def Continues (g : Generator) (c : Cond) : Prop :=
  ∀ (chain : Chain) {a : List Line} {s : Stock} {br : Branch} {g' : Generator},
    c.generateIn (some ⟨.ofTest a.length chain.test, chain.yes, chain.no⟩)
      (g.holding (a ++ Code.closeTest "" "" chain.test) s) = .ok br g' →
    ∃ test s', Cond.Coded g.scope (some chain) s c test s' ∧ br = .ofTest a.length test
      ∧ g' = g.holding (a ++ Code.closeTest "" "" test) s'

theorem generateIn_some (hc : ∀ lhs rhs, c ≠ .or lhs rhs) (alts : Alternatives) :
    c.generateIn (some alts) = Gen.lastAlternative (some alts) (c.generateIn none) := by
  cases c with
  | or lhs rhs => exact absurd rfl (hc lhs rhs)
  | _ => rfl

theorem Generates.continues (h : c.Generates g) (hc : ∀ lhs rhs, c ≠ .or lhs rhs) :
    c.Continues g := by
  intro chain a s br g' hg
  rw [generateIn_some hc] at hg
  obtain ⟨test, s', ht, rfl, rfl⟩ := Gen.of_lastAlternative h hg
  exact ⟨_, _, .last hc ht, rfl, rfl⟩

theorem generates_nonzero {e : Expr} :
    (nonzero e).Generates g := by
  intro a s br g' h
  obtain ⟨v, _, ⟨lines, s', hv, rfl⟩, h⟩ := Gen.after Expr.coded_of_generate h
  rw [Generator.grow_holding] at h
  obtain ⟨_, _, ⟨rfl, rfl⟩, h⟩ := Gen.after Gen.of_emitTest_new h
  obtain ⟨_, _, rfl, h⟩ := Gen.after Gen.of_free h
  obtain ⟨rfl, rfl⟩ := Gen.of_pure h
  refine ⟨_, _, .nonzero hv, ?_, by simp⟩
  rw [Branch.ofTest_append_of_lines, Branch.ofTest_append_lines, List.length_append]

theorem generates_odd {e : Expr} :
    (odd e).Generates g := by
  intro a s br g' h
  obtain ⟨v, _, ⟨lines, s', hv, rfl⟩, h⟩ := Gen.after Expr.coded_of_generate h
  rw [Generator.grow_holding] at h
  obtain ⟨_, _, ⟨rfl, rfl⟩, h⟩ := Gen.after Gen.of_emitTest_new h
  obtain ⟨_, _, rfl, h⟩ := Gen.after Gen.of_free h
  obtain ⟨rfl, rfl⟩ := Gen.of_pure h
  refine ⟨_, _, .odd hv, ?_, by simp⟩
  rw [Branch.ofTest_append_of_lines, Branch.ofTest_append_lines, List.length_append]

theorem generates_compare {lhs rhs : Expr} {rel : Relation} :
    (compare lhs rel rhs).Generates g := by
  intro a s br g' h
  obtain ⟨u, _, ⟨lines₁, s₁, hu, rfl⟩, h⟩ := Gen.after Expr.coded_of_generate h
  obtain ⟨v, _, ⟨lines₂, s₂, hv, rfl⟩, h⟩ := Gen.after Expr.coded_of_generate h
  obtain ⟨⟨u', v'⟩, _, ⟨lines₃, s₃, hm, rfl⟩, h⟩ := Gen.after Gen.of_sameWidth h
  simp only [Generator.grow_holding] at h
  obtain ⟨_, _, ⟨-, rfl, rfl⟩, h⟩ := Gen.after Gen.of_relation h
  obtain ⟨_, _, rfl, h⟩ := Gen.after Gen.of_free h
  obtain ⟨_, _, rfl, h⟩ := Gen.after Gen.of_free h
  obtain ⟨rfl, rfl⟩ := Gen.of_pure h
  refine ⟨_, _, .compare hu hv hm, ?_, by simp⟩
  rw [Branch.ofTest_append_of_lines, Branch.ofTest_append_lines]
  simp

theorem generates_and {lhs rhs : Cond}
    (hl : lhs.Generates g)
    (hr : rhs.Generates g) :
    (and lhs rhs).Generates g := by
  intro a s br g' h
  obtain ⟨test₁, s₁, test₂, s₂, h₁, h₂, rfl, rfl⟩ := Gen.of_conjunction hl hr h
  exact ⟨_, _, .and h₁ h₂, rfl, rfl⟩

theorem generates_group {close : Gate}
    (hc : c.Generates g) :
    (group c close).Generates g := by
  intro a s br g' h
  obtain ⟨_, _, ⟨test, s', ht, rfl, rfl⟩, h⟩ := Gen.after hc h
  obtain ⟨_, _, ⟨rfl, rfl⟩, h⟩ := Gen.after Gen.of_pass h
  obtain ⟨rfl, rfl⟩ := Gen.of_pure h
  exact ⟨_, _, .group ht, rfl, rfl⟩

theorem generates_or {lhs rhs : Cond}
    (hl : lhs.Generates g) (hr : rhs.Continues g) :
    (or lhs rhs).Generates g := by
  intro a s br g' h
  obtain ⟨_, _, ⟨test₁, s₁, h₁, rfl, rfl⟩, h⟩ := Gen.after hl h
  obtain ⟨_, _, ⟨rfl, rfl⟩, h⟩ := Gen.after Gen.of_newLabel h
  obtain ⟨_, _, ⟨rfl, rfl⟩, h⟩ := Gen.after Gen.of_newLabel h
  simp only [Generator.grow_holding, Generator.stock_holding, List.append_nil, Stock.skip_skip,
    Stock.labels_skip, Nat.reduceAdd] at h
  obtain ⟨test₂, s₂, h₂, rfl, rfl⟩ := hr ⟨test₁, _, _⟩ h
  exact ⟨_, _, .or h₁ h₂, rfl, rfl⟩

theorem continues_or {lhs rhs : Cond}
    (hl : lhs.Generates g) (hr : rhs.Continues g) :
    (or lhs rhs).Continues g := by
  intro chain a s br g' h
  obtain ⟨_, _, ⟨test₁, s₁, h₁, rfl, rfl⟩, h⟩ := Gen.after (Gen.of_alternative hl) h
  obtain ⟨test₂, s₂, h₂, rfl, rfl⟩ := hr { chain with test := _ } h
  exact ⟨_, _, .next h₁ h₂, rfl, rfl⟩

/-- A condition in no chain and one that continues a chain. -/
theorem generates_and_continues (c : Cond) :
    c.Generates g ∧ c.Continues g := by
  induction c with
  | or lhs rhs ihl ihr => exact ⟨generates_or ihl.1 ihr.2, continues_or ihl.1 ihr.2⟩
  | fault why =>
    have h : (fault why).Generates g := fun h => (Gen.not_fail h).elim
    exact ⟨h, h.continues nofun⟩
  | compare lhs rel rhs => exact ⟨generates_compare, generates_compare.continues nofun⟩
  | nonzero e => exact ⟨generates_nonzero, generates_nonzero.continues nofun⟩
  | odd e => exact ⟨generates_odd, generates_odd.continues nofun⟩
  | group c close ih =>
    exact ⟨generates_group ih.1, Generates.continues (generates_group ih.1) nofun⟩
  | and lhs rhs ihl ihr =>
    exact ⟨generates_and ihl.1 ihr.1, Generates.continues (generates_and ihl.1 ihr.1) nofun⟩

/-- The code of a condition is its test, with the exits open. -/
theorem coded_of_generate {a : List Line} {s : Stock} {br : Branch} {g' : Generator}
    (h : c.generate (g.holding a s) = .ok br g') :
    ∃ test s', Cond.Coded g.scope none s c test s' ∧ br = .ofTest a.length test
      ∧ g' = g.holding (a ++ Code.closeTest "" "" test) s' :=
  (generates_and_continues c).1 h

end Cond

end NibblePascal
