import NibblePascal.Proofs.Generation.Opened
import NibblePascal.Proofs.Generation.Unique
import NibblePascal.Proofs.Machine.Stretch
import NibblePascal.Proofs.Simulation.Condition

/-!
# Operands that are not evaluated

The code of an operand of `and` or `or` is not executed unless the operands before it have the
outcomes of its path.  To see this its instructions are replaced: where the outcomes are other ones
the test decides the condition all the same, so the run does not come there.

* `Masks lo len test masked`: the tests differ in `len` instructions from number `lo` on, in whose
  place `masked` has the end of the run;
* `Cond.Avoids`: the masked test decides the condition if some outcome of the path is another one;
* `Cond.Enters.avoids`: this is so when the code of the operand is masked.
-/

namespace NibblePascal

open Code

/-! ### Masked instructions -/

/-- The line with the end of a run in the place of its instruction. -/
def Line.mask : Line → Line
  | .inst _ => .inst .hlt
  | l => l

def TestLine.mask : TestLine → TestLine
  | .line l => .line l.mask
  | .exit _ _ => .line (.inst .hlt)

/-- The number of instructions of a test. -/
def testSize (test : List TestLine) : Nat := codeSize (closeTest "" "" test)

section Masks

variable {test test' masked : List TestLine} {lo len : Nat} {image : Image} {ρ : String → Nat}
  {P : Nat → Prop} {pc : Nat} {lines : List Line}

theorem codeSize_closeTest (yes no : String) (test : List TestLine) :
    codeSize (closeTest yes no test) = testSize test := by
  unfold testSize
  induction test with
  | nil => rfl
  | cons l test ih =>
    cases l with
    | line l => rw [closeTest_line, closeTest_line, codeSize_cons, ih, ← codeSize_cons]
    | exit outcome kind => rw [closeTest_exit, closeTest_exit, codeSize_jump, codeSize_jump, ih]

@[simp] theorem testSize_append (test test' : List TestLine) :
    testSize (test ++ test') = testSize test + testSize test' := by
  simp [testSize]

@[simp] theorem testSize_map_line (lines : List Line) :
    testSize (lines.map .line) = codeSize lines := by
  simp [testSize]

theorem closeTest_mask (yes no : String) (test : List TestLine) :
    closeTest yes no (test.map TestLine.mask) = (closeTest yes no test).map Line.mask := by
  induction test with
  | nil => rfl
  | cons l test ih =>
    cases l with
    | line l => simpa [TestLine.mask] using ih
    | exit outcome kind => simpa [TestLine.mask, Line.mask, jump] using ih

theorem codeSize_mask (lines : List Line) : codeSize (lines.map Line.mask) = codeSize lines := by
  induction lines with
  | nil => rfl
  | cons l lines ih =>
    rw [List.map_cons, codeSize_cons, ih, codeSize_cons l]
    cases l <;> rfl

/-- Instructions that are cut off are masked. -/
theorem Image.Holds.mask [DecidablePred P] (h : image.Holds ρ pc lines)
    (hP : ∀ k < codeSize lines, ¬ P (pc + k)) :
    (image.only P).Holds ρ pc (lines.map Line.mask) := by
  induction lines generalizing pc with
  | nil => exact Image.holds_nil pc
  | cons l lines ih =>
    cases l with
    | inst i =>
      refine ⟨?_, ih h.2 fun k hk => ?_⟩
      · have hpc := hP 0 (Nat.succ_pos _)
        rw [Image.getElem?_only, h.1]
        exact congrArg some (if_neg hpc)
      · rw [Nat.add_assoc, Nat.add_comm 1]
        exact hP (k + 1) (Nat.succ_lt_succ hk)
    | label name => exact ⟨h.1, ih h.2 hP⟩
    | comment | release | endProc | raw => exact ih h hP

/-- The second test is the first one with `len` instructions from number `lo` on masked. -/
def Masks (lo len : Nat) (test masked : List TestLine) : Prop :=
  ∃ before hidden after, test = before ++ (hidden ++ after)
    ∧ masked = before ++ (hidden.map TestLine.mask ++ after)
    ∧ testSize before = lo ∧ testSize hidden = len

namespace Masks

theorem all (test : List TestLine) : Masks 0 (testSize test) test (test.map TestLine.mask) :=
  ⟨[], test, [], by simp, by simp, rfl, rfl⟩

theorem append_right (h : Masks lo len test masked) (rest : List TestLine) :
    Masks lo len (test ++ rest) (masked ++ rest) := by
  obtain ⟨before, hidden, after, rfl, rfl, hlo, hlen⟩ := h
  exact ⟨before, hidden, after ++ rest, by simp, by simp, hlo, hlen⟩

theorem append_left (h : Masks lo len test masked) (first : List TestLine) :
    Masks (testSize first + lo) len (first ++ test) (first ++ masked) := by
  obtain ⟨before, hidden, after, rfl, rfl, rfl, hlen⟩ := h
  exact ⟨first ++ before, hidden, after, by simp, by simp, testSize_append .., hlen⟩

theorem close (h : Masks lo len test masked) (yes no : String) :
    Masks lo len ((closeTest yes no test).map .line) ((closeTest yes no masked).map .line) := by
  obtain ⟨before, hidden, after, rfl, rfl, rfl, rfl⟩ := h
  refine ⟨(closeTest yes no before).map .line, (closeTest yes no hidden).map .line,
    (closeTest yes no after).map .line, by simp, ?_, ?_, ?_⟩
  · simp [closeTest_mask, TestLine.mask, Function.comp_def]
  · rw [testSize_map_line, codeSize_closeTest]
  · rw [testSize_map_line, codeSize_closeTest]

theorem continued (h : Masks lo len test masked) (yes no next : String) :
    Masks lo len (Code.continued yes no next test) (Code.continued yes no next masked) := by
  simpa [Code.continued] using (h.close yes no).append_right [.line (.label next)]

theorem merged (h : Masks lo len test masked) (yes no : String) :
    Masks lo len (Code.merged yes no test) (Code.merged yes no masked) :=
  (h.close yes no).append_right _

/-- A test is masked behind another one. -/
theorem behind (h : Masks lo len test masked) (yes no next : String) (first : List TestLine) :
    Masks (codeSize (closeTest "" "" first ++ [.label next]) + lo) len
      (Code.continued yes no next first ++ test) (Code.continued yes no next first ++ masked) := by
  have hbehind := h.append_left (Code.continued yes no next first)
  rw [Code.continued, testSize_map_line, codeSize_append, codeSize_closeTest,
    ← codeSize_closeTest "" "", ← codeSize_append] at hbehind
  exact hbehind

theorem le_testSize (h : Masks lo len test masked) : lo + len ≤ testSize test := by
  obtain ⟨before, hidden, after, rfl, -, rfl, rfl⟩ := h
  simp only [testSize_append]
  omega

/-- With the masked instructions cut off the image holds the masked test. -/
theorem holds (h : Masks lo len test masked) [DecidablePred P] {yes no : String}
    (hold : image.Holds ρ pc (closeTest yes no test))
    (hP : ∀ k < testSize test, P (pc + k) ↔ ¬ (lo ≤ k ∧ k < lo + len)) :
    (image.only P).Holds ρ pc (closeTest yes no masked) := by
  obtain ⟨before, hidden, after, rfl, rfl, rfl, rfl⟩ := h
  simp only [closeTest_append, Image.holds_append, closeTest_mask, codeSize_mask,
    codeSize_closeTest, testSize_append] at hold hP ⊢
  obtain ⟨hbefore, hhidden, hafter⟩ := hold
  refine ⟨hbefore.only fun k hk => ?_, hhidden.mask fun k hk => ?_, hafter.only fun k hk => ?_⟩
  · rw [codeSize_closeTest] at hk
    exact (hP k (by omega)).2 (by omega)
  · rw [codeSize_closeTest] at hk
    rw [Nat.add_assoc]
    exact fun h => (hP (testSize before + k) (by omega)).1 h (by omega)
  · rw [codeSize_closeTest] at hk
    rw [Nat.add_assoc, Nat.add_assoc]
    exact (hP (testSize before + (testSize hidden + k)) (by omega)).2 (by omega)

end Masks

end Masks

/-! ### Paths -/

/-- Some condition of the path has another outcome than the one given with it. -/
def Cond.Untaken (D : Decls) (σ : Store) (path : List (Cond × Bool)) : Prop :=
  ∃ q ∈ path, q.1.truth D σ ≠ some q.2

theorem Cond.Untaken.tail {D : Decls} {σ : Store} {c : Cond} {b : Bool}
    {path : List (Cond × Bool)} (h : Cond.Untaken D σ ((c, b) :: path))
    (hc : c.truth D σ = some b) : Cond.Untaken D σ path := by
  obtain ⟨q, hq, hne⟩ := h
  obtain rfl | hq := List.mem_cons.1 hq
  exacts [absurd hc hne, ⟨q, hq, hne⟩]

theorem Cond.either_eq_false {t u : Option Bool} (h : Cond.either t u = some false) :
    t = some false ∧ u = some false := by
  rcases t with _ | _ | _
  · cases h
  · exact ⟨rfl, h⟩
  · cases h

/-- A test that decides the condition wherever the path is not taken: by itself, or behind the chain
that it continues, if those before it all fail. -/
def Cond.Avoids (sc : Scope) (chain : Option Chain) (s : Stock) (c : Cond)
    (path : List (Cond × Bool)) (masked : List TestLine) : Prop :=
  ∀ (image : Image) (ρ : String → Nat) (room : Nat → Prop) (m : Memory) (out : Vector Nat 16),
    sc.Ready room → Workspace room s [] → m.Nibbles →
    match chain with
    | none => Cond.Untaken sc.decls (sc.view m out) path →
        ∀ yes no, image.Branches ρ masked yes no room m (c.truth sc.decls (sc.view m out))
    | some ch => ∀ t, (∀ next, image.Branches ρ ch.test ch.yes next room m t) →
        (t = some false → Cond.Untaken sc.decls (sc.view m out) path) →
        ∀ yes no, image.Branches ρ masked yes no room m
          (Cond.either t (c.truth sc.decls (sc.view m out)))

namespace Cond.Avoids

variable {sc : Scope} {s s₁ s₂ : Stock} {chain : Chain} {c lhs rhs : Cond}
  {path : List (Cond × Bool)} {test₁ test₂ masked : List TestLine} {yes no next : String}

/-- An operand without a path. -/
theorem self (test : List TestLine) : Avoids sc none s c [] test := by
  rintro image ρ room m out - - - ⟨q, hq, -⟩
  cases hq

theorem andLeft (h : Avoids sc none s lhs path masked) (hl : lhs.Coded sc none s test₁ s₁)
    (hr : rhs.Coded sc none (s₁.skip 3) test₂ s₂) :
    Avoids sc none s (.and lhs rhs) path
      (Code.continued next no next masked ++ Code.merged yes no test₂) := by
  intro image ρ room m out hready hw hm hpath yes' no'
  have hw₁ := (hl.books hready.ledger hw).skip 3
  rw [Cond.truth_and]
  refine Coded.branches_and (h image ρ room m out hready hw hm hpath _ _) fun _ m' hm' hsame => ?_
  exact hready.view_congr hsame out ▸ hr.decided image ρ out hready hw₁ hm' _ _

theorem andRight (hl : lhs.Coded sc none s test₁ s₁)
    (h : Avoids sc none (s₁.skip 3) rhs path masked) :
    Avoids sc none s (.and lhs rhs) ((lhs, true) :: path)
      (Code.continued next no next test₁ ++ Code.merged yes no masked) := by
  intro image ρ room m out hready hw hm hpath yes' no'
  have hw₁ := (hl.books hready.ledger hw).skip 3
  rw [Cond.truth_and]
  refine Coded.branches_and (hl.decided image ρ out hready hw hm _ _) fun ht m' hm' hsame => ?_
  have hpath' := hpath.tail ht
  rw [← hready.view_congr hsame out] at hpath' ⊢
  exact h image ρ room m' out hready hw₁ hm' hpath' _ _

theorem orLeft (h : Avoids sc none s lhs path test₁) (hl : lhs.Coded sc none s test₂ s₁)
    (hr : rhs.Coded sc (some ⟨test₁, yes, no⟩) (s₁.skip 2) masked s₂) :
    Avoids sc none s (.or lhs rhs) path masked := by
  intro image ρ room m out hready hw hm hpath
  have hw₁ := (hl.books hready.ledger hw).skip 2
  exact hr.decided image ρ out hready hw₁ hm _ fun next =>
    h image ρ room m out hready hw hm hpath _ next

theorem orRight (hl : lhs.Coded sc none s test₁ s₁)
    (h : Avoids sc (some ⟨test₁, yes, no⟩) (s₁.skip 2) rhs path masked) :
    Avoids sc none s (.or lhs rhs) ((lhs, false) :: path) masked := by
  intro image ρ room m out hready hw hm hpath
  have hw₁ := (hl.books hready.ledger hw).skip 2
  exact h image ρ room m out hready hw₁ hm _
    (fun next => hl.decided image ρ out hready hw hm _ next) hpath.tail

theorem nextLeft (h : Avoids sc none (s.skip 1) lhs path test₁)
    (hl : lhs.Coded sc none (s.skip 1) test₂ s₁)
    (hr : rhs.Coded sc (some ⟨Code.continued chain.yes next next chain.test ++ test₁, chain.yes,
      chain.no⟩) s₁ masked s₂) : Avoids sc (some chain) s (.or lhs rhs) path masked := by
  intro image ρ room m out hready hw hm t ht hpath yes no
  have hw₁ := hl.books hready.ledger (hw.skip 1)
  rw [Cond.truth_or, ← Cond.either_assoc]
  refine hr.decided image ρ out hready hw₁ hm _ (fun next' => ?_) yes no
  refine Coded.branches_next (ht _) fun htf m' hm' hsame => ?_
  have hpath' := hpath htf
  rw [← hready.view_congr hsame out] at hpath' ⊢
  exact h image ρ room m' out hready (hw.skip 1) hm' hpath' _ _

theorem nextRight (hl : lhs.Coded sc none (s.skip 1) test₁ s₁)
    (h : Avoids sc (some ⟨Code.continued chain.yes next next chain.test ++ test₁, chain.yes,
      chain.no⟩) s₁ rhs path masked) :
    Avoids sc (some chain) s (.or lhs rhs) ((lhs, false) :: path) masked := by
  intro image ρ room m out hready hw hm t ht hpath yes no
  have hw₁ := hl.books hready.ledger (hw.skip 1)
  rw [Cond.truth_or, ← Cond.either_assoc]
  refine h image ρ room m out hready hw₁ hm _ (fun next' => ?_) (fun heq => ?_) yes no
  · refine Coded.branches_next (ht _) fun _ m' hm' hsame => ?_
    exact hready.view_congr hsame out ▸ hl.decided image ρ out hready (hw.skip 1) hm' _ _
  · obtain ⟨htf, hlf⟩ := Cond.either_eq_false heq
    exact (hpath htf).tail hlf

theorem last (h : Avoids sc none (s.skip 1) c path masked) :
    Avoids sc (some chain) s c path
      (Code.continued chain.yes next next chain.test ++ Code.merged chain.yes chain.no masked) := by
  intro image ρ room m out hready hw hm t ht hpath yes no
  refine Coded.branches_last (ht _) fun htf m' hm' hsame => ?_
  have hpath' := hpath htf
  rw [← hready.view_congr hsame out] at hpath' ⊢
  exact h image ρ room m' out hready (hw.skip 1) hm' hpath' _ _

/-- A run that comes to the masked instructions has taken the path. -/
theorem taken {test : List TestLine} {lo len n k : Nat} {image : Image} {ρ : String → Nat}
    {room : Nat → Prop} {t u : State} (h : Avoids sc none s c path masked)
    (hmask : Masks lo len test masked) (hready : sc.Ready room) (hw : Workspace room s [])
    (hold : image.Holds ρ t.pc (closeTest yes no test))
    (hout : ∀ x, x = yes ∨ x = no → ¬ Within t.pc (closeTest yes no test) (ρ x)) (hb : t.bank = 0)
    (hm : t.mem.Nibbles) (hruns : image.Runs (closeTest yes no test) n t u)
    (hpc : u.pc = t.pc + k) (hlo : lo ≤ k) (hhi : k < lo + len) :
    ∀ q ∈ path, q.1.truth sc.decls (sc.view t.mem t.out) = some q.2 := by
  by_contra huntaken
  have hpath : Untaken sc.decls (sc.view t.mem t.out) path := by
    push Not at huntaken
    exact huntaken
  classical
  -- The lines without the masked instructions; with only these the run would stop there.
  let P : Nat → Prop := fun pc => Within t.pc (closeTest yes no test) pc
    ∧ ¬ (t.pc + lo ≤ pc ∧ pc < t.pc + (lo + len))
  have hP : ∀ k < testSize test, P (t.pc + k) ↔ ¬ (lo ≤ k ∧ k < lo + len) := by
    intro k hk
    simp only [P, Within, codeSize_closeTest]
    omega
  have hbranches := h (image.only P) ρ room t.mem t.out hready hw hm hpath yes no
  have hmasked := hmask.holds hold hP
  have hu : ¬ P u.pc := fun hin => hin.2 (by omega)
  have hat : t.At ⟨t.pc, t.mem, t.out, t.inp⟩ := ⟨rfl, hb, rfl, rfl, rfl⟩
  cases htruth : c.truth sc.decls (sc.view t.mem t.out) with
  | none =>
    rw [htruth] at hbranches
    obtain ⟨v, hv⟩ := hbranches t.pc t.out t.inp hmasked (n + 1) t hat
    exact hu ((Image.steps_only_iff.1 hv).inside n n.lt_succ_self u hruns.steps)
  | some b =>
    rw [htruth] at hbranches
    obtain ⟨m', -, -, hadvances⟩ := hbranches
    obtain ⟨n', v, hv, hpc', -⟩ := hadvances t.pc t.out t.inp hmasked t hat
    have hstays := Image.steps_only_iff.1 hv
    have hleft : ¬ Within t.pc (closeTest yes no test) v.pc := by
      rw [hpc']
      exact hout _ (by cases b <;> simp)
    -- The run has left by then, so it came to the masked instructions before.
    obtain hlt | rfl := Nat.lt_or_eq_of_le
      ((hstays.mono fun _ h => h.1).le_of_not hleft hruns)
    · exact hu (hstays.inside n hlt u hruns.steps)
    · obtain rfl : u = v := Option.some.inj (hruns.steps.symm.trans hstays.steps)
      have hle := hmask.le_testSize
      rw [Within, codeSize_closeTest] at hleft
      omega

end Cond.Avoids

/-! ### Operands in their place -/

section Operands

variable {g g₀ g₁ g₂ : Generator} {lines : List Line} {s s' : Stock} {alts : Option Alternatives}
  {chain : Option Chain} {c d : Cond} {path : List (Cond × Bool)} {br : Branch}
  {test masked : List TestLine} {lo len : Nat}

/-- The code of a condition behind a chain that is masked. -/
theorem Cond.Coded.rechain {sc : Scope} {ch : Chain} (h : c.Coded sc (some ch) s test s')
    (hm : Masks lo len ch.test masked) : ∃ masked',
      c.Coded sc (some ⟨masked, ch.yes, ch.no⟩) s masked' s' ∧ Masks lo len test masked' := by
  generalize hch : some ch = chain at h
  induction h generalizing ch masked with
  | compare | nonzero | odd | group | and | or => cases hch
  | next hl _ _ ihr =>
    cases hch
    obtain ⟨masked', hr', hm'⟩ := ihr ((hm.continued _ _ _).append_right _) rfl
    exact ⟨masked', .next hl hr', hm'⟩
  | last hc h =>
    cases hch
    exact ⟨_, .last hc h, (hm.continued _ _ _).append_right _⟩

/-- With the code of an operand masked the test decides the condition wherever the path of the
operand is not taken. -/
theorem Cond.Enters.avoids (h : c.Enters alts g₀ path d g₁)
    (hb : Cond.Begins g lines s alts chain g₀) (hc : c.Coded g.scope chain s test s')
    (hd : d.generate g₁ = .ok br g₂) :
    ∃ masked lines₁ lines₂ s₁ s₂, g₁ = g.holding (lines ++ lines₁) s₁
      ∧ g₂ = g.holding (lines ++ (lines₁ ++ lines₂)) s₂
      ∧ Masks (codeSize lines₁) (codeSize lines₂) test masked
      ∧ c.Avoids g.scope chain s path masked := by
  -- Along the path from the operand outwards: every step puts code before or behind its own.
  induction h generalizing lines s s' chain test with
  | self =>
    cases hb
    obtain ⟨test', s₂, hd', -, rfl⟩ := Cond.coded_of_generate hd
    obtain ⟨rfl, -⟩ := hc.unique hd'
    exact ⟨_, [], closeTest "" "" test, s, s₂, by simp, rfl, .all test, .self _⟩
  | group _ ih =>
    cases hb
    cases hc with
    | group hc => exact ih .alone hc hd
  | andLeft _ ih =>
    cases hb
    cases hc with
    | and hl hr =>
      obtain ⟨masked, lines₁, lines₂, s₁, s₂, h₁, h₂, hm, ha⟩ := ih .alone hl hd
      exact ⟨_, lines₁, lines₂, s₁, s₂, h₁, h₂, (hm.continued _ _ _).append_right _,
        ha.andLeft hl hr⟩
  | andRight hl hyes hno hnext hplace _ ih =>
    obtain ⟨test₁, s₁, hl', hb'⟩ := hb.second hl hyes hno hnext hplace
    cases hb
    cases hc with
    | and hl hr =>
      obtain ⟨rfl, rfl⟩ := hl'.unique hl
      obtain ⟨masked, lines₁, lines₂, t₁, t₂, rfl, rfl, hm, ha⟩ := ih hb' hr hd
      have hm' := (hm.merged (labelName s₁.labels) (labelName (s₁.labels + 1))).behind
        (labelName (s₁.labels + 2)) (labelName (s₁.labels + 1)) (labelName (s₁.labels + 2)) test₁
      rw [← codeSize_append] at hm'
      exact ⟨_, _, lines₂, t₁, t₂, by rw [List.append_assoc], by simp, hm', .andRight hl ha⟩
  | orLeft _ ih =>
    cases hb
    cases hc with
    | or hl hr =>
      obtain ⟨masked, lines₁, lines₂, s₁, s₂, h₁, h₂, hm, ha⟩ := ih .alone hl hd
      obtain ⟨masked', hr', hm'⟩ := hr.rechain hm
      exact ⟨masked', lines₁, lines₂, s₁, s₂, h₁, h₂, hm', ha.orLeft hl hr'⟩
  | orRight hl hyes hno _ ih =>
    obtain ⟨test₁, s₁, hl', hb'⟩ := hb.other hl hyes hno
    cases hb
    cases hc with
    | or hl hr =>
      obtain ⟨rfl, rfl⟩ := hl'.unique hl
      obtain ⟨masked, lines₁, lines₂, t₁, t₂, h₁, h₂, hm, ha⟩ := ih hb' hr hd
      exact ⟨masked, lines₁, lines₂, t₁, t₂, h₁, h₂, hm, .orRight hl ha⟩
  | nextLeft hnext hplace _ ih =>
    obtain ⟨ch, rfl, hb'⟩ := hb.next hnext hplace
    cases hc with
    | last hc => exact absurd rfl (hc _ _)
    | next hl hr =>
      obtain ⟨masked, lines₁, lines₂, t₁, t₂, rfl, rfl, hm, ha⟩ := ih hb' hl hd
      obtain ⟨masked', hr', hm'⟩ :=
        hr.rechain (hm.behind ch.yes (labelName s.labels) (labelName s.labels) ch.test)
      rw [← codeSize_append] at hm'
      exact ⟨masked', _, lines₂, t₁, t₂, by rw [List.append_assoc], by simp, hm',
        ha.nextLeft hl hr'⟩
  | nextRight hl _ ih =>
    obtain ⟨ch, test₁, s₁, rfl, hl', hb'⟩ := hb.further hl
    cases hc with
    | last hc => exact absurd rfl (hc _ _)
    | next hl hr =>
      obtain ⟨rfl, rfl⟩ := hl'.unique hl
      obtain ⟨masked, lines₁, lines₂, t₁, t₂, h₁, h₂, hm, ha⟩ := ih hb' hr hd
      exact ⟨masked, lines₁, lines₂, t₁, t₂, h₁, h₂, hm, .nextRight hl ha⟩
  | last hor hnext hplace _ ih =>
    obtain ⟨ch, rfl, hb'⟩ := hb.next hnext hplace
    cases hc with
    | next => exact absurd rfl (hor _ _)
    | last _ hc =>
      obtain ⟨masked, lines₁, lines₂, t₁, t₂, rfl, rfl, hm, ha⟩ := ih hb' hc hd
      have hm' := (hm.merged ch.yes ch.no).behind ch.yes (labelName s.labels) (labelName s.labels)
        ch.test
      rw [← codeSize_append] at hm'
      exact ⟨_, _, lines₂, t₁, t₂, by rw [List.append_assoc], by simp, hm', ha.last⟩

end Operands

end NibblePascal
