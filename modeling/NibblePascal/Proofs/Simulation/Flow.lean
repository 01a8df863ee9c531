import NibblePascal.Proofs.Simulation.Statement

/-!
# The code of compound statements

A statement that runs to its end has code that runs to its end and leaves the same store; the
code of a statement that never ends never ends.

* `Task.Coded E m task lines`: the lines are the code of a task; the limit of a counted loop is
  read off the memory;
* `Task.Runs.executes` is the first half, by induction on the run of the task, and
  `Stmt.Coded.hangs` the second, by induction on the statement; a loop that never ends takes
  any number of turns.
-/

namespace NibblePascal

open Code

/-! ### Where the parts of a statement stand -/

section Shape

variable {image : Image} {ρ : String → Nat} {pc n : Nat} {t u : List TestLine}
  {body first second : List Piece} {step : List Line}

/-- The lines of a piece of code, apart from calls and returns. -/
abbrev plainLines (code : List Piece) : List Line := code.map Piece.plain

/-- A test with numbered labels for its outcomes. -/
abbrev testLines (yes no : Nat) (t : List TestLine) : List Line :=
  closeTest (labelName yes) (labelName no) t

theorem lines_ifThen : plainLines (Piece.ifThen n t body) =
    testLines n (n + 2) t ++ (label n :: (plainLines body ++ [label (n + 2)])) := by
  simp [Piece.ifThen, Piece.test, Piece.mark, Piece.plain]

theorem lines_ifElse : plainLines (Piece.ifElse n t first second) =
    testLines n (n + 1) t ++ (label n :: (plainLines first ++ (jump .jmp (labelName (n + 2)) ::
      label (n + 1) :: (plainLines second ++ [label (n + 2)])))) := by
  simp [Piece.ifElse, Piece.test, Piece.mark, Piece.goto, Piece.plain]

theorem lines_whileDo : plainLines (Piece.whileDo n t body) =
    label n :: (testLines (n + 1) (n + 2) t ++ (label (n + 1) :: (plainLines body ++
      [jump .jmp (labelName n), label (n + 2)]))) := by
  simp [Piece.whileDo, Piece.test, Piece.mark, Piece.goto, Piece.plain]

theorem lines_repeatUntil : plainLines (Piece.repeatUntil n body t) =
    label n :: (plainLines body ++ (testLines (n + 1) n t ++ [label (n + 1)])) := by
  simp [Piece.repeatUntil, Piece.test, Piece.mark, Piece.plain]

theorem lines_forLoop : plainLines (Piece.forLoop n t body u step) =
    label n :: (testLines (n + 3) (n + 1) t ++ (label (n + 1) :: (plainLines body ++
      (testLines (n + 3) (n + 2) u ++ (label (n + 2) :: (step ++
        [jump .jmp (labelName n), label (n + 3)])))))) := by
  simp [Piece.forLoop, Piece.test, Piece.mark, Piece.goto, Piece.plain]

end Shape

/-! ### Runs through statements -/

namespace Setting

variable {E : Setting} {n yes no : Nat} {t u : List TestLine} {body first second : List Piece}
  {lines lines' step : List Line} {m m₁ m₂ m₃ m₄ : Memory} {out out₁ out₂ : Vector Nat 16} {b : Bool}

/-- The run comes back to the start of the lines. -/
def Turns (E : Setting) (lines : List Line) (m : Memory) (out : Vector Nat 16) (m' : Memory)
    (out' : Vector Nat 16) : Prop :=
  ∀ pc, E.image.Holds E.place pc lines →
    E.image.Advances ⟨pc, m, out, E.inp⟩ ⟨pc, m', out', E.inp⟩

/-- The test leads to the label of its outcome. -/
def Tests (E : Setting) (yes no : Nat) (t : List TestLine) (m : Memory) (out : Vector Nat 16)
    (m' : Memory) (b : Bool) : Prop :=
  ∀ pc, E.image.Holds E.place pc (testLines yes no t) →
    E.image.Advances ⟨pc, m, out, E.inp⟩
      ⟨E.place (labelName (if b then yes else no)), m', out, E.inp⟩

theorem goes_ifThen_true (ht : E.Tests n (n + 2) t m out m₁ true)
    (hb : E.Goes (plainLines body) m₁ out m₂ out₂) :
    E.Goes (plainLines (Piece.ifThen n t body)) m out m₂ out₂ := by
  intro pc hold
  rw [lines_ifThen] at hold ⊢
  obtain ⟨htest, hyes, hbody⟩ := (Image.holds_append ..).1 hold
  obtain ⟨hbody, -⟩ := (Image.holds_append ..).1 hbody
  have hlead := (ht pc htest).leads
  rw [if_pos rfl, hyes] at hlead
  refine (hlead.trans (hb _ hbody)).at_pc ?_ rfl
  simp [Nat.add_assoc]

theorem goes_ifThen_false (ht : E.Tests n (n + 2) t m out m₁ false) :
    E.Goes (plainLines (Piece.ifThen n t body)) m out m₁ out := by
  intro pc hold
  rw [lines_ifThen] at hold ⊢
  obtain ⟨htest, -, hbody⟩ := (Image.holds_append ..).1 hold
  obtain ⟨-, hno, -⟩ := (Image.holds_append ..).1 hbody
  refine (ht pc htest).leads.at_pc (hno.trans ?_) rfl
  simp [Nat.add_assoc]

theorem goes_ifElse_true (ht : E.Tests n (n + 1) t m out m₁ true)
    (hb : E.Goes (plainLines first) m₁ out m₂ out₂) :
    E.Goes (plainLines (Piece.ifElse n t first second)) m out m₂ out₂ := by
  intro pc hold
  rw [lines_ifElse] at hold ⊢
  obtain ⟨htest, hyes, hrest⟩ := (Image.holds_append ..).1 hold
  obtain ⟨hfirst, hjump, -, hrest⟩ := (Image.holds_append ..).1 hrest
  obtain ⟨-, hend, -⟩ := (Image.holds_append ..).1 hrest
  have hlead := (ht pc htest).leads
  rw [if_pos rfl, hyes] at hlead
  refine ((hlead.trans (hb _ hfirst)).trans (Image.advances_jump hjump).leads).at_pc
    (hend.trans ?_) rfl
  simp [Nat.add_assoc, Nat.add_comm 1]

theorem goes_ifElse_false (ht : E.Tests n (n + 1) t m out m₁ false)
    (hb : E.Goes (plainLines second) m₁ out m₂ out₂) :
    E.Goes (plainLines (Piece.ifElse n t first second)) m out m₂ out₂ := by
  intro pc hold
  rw [lines_ifElse] at hold ⊢
  obtain ⟨htest, -, hrest⟩ := (Image.holds_append ..).1 hold
  obtain ⟨-, -, hno, hrest⟩ := (Image.holds_append ..).1 hrest
  obtain ⟨hsecond, -⟩ := (Image.holds_append ..).1 hrest
  have hlead := (ht pc htest).leads
  rw [if_neg Bool.false_ne_true, hno] at hlead
  refine (hlead.trans (hb _ hsecond)).at_pc ?_ rfl
  simp [Nat.add_assoc, Nat.add_comm 1]

theorem goes_whileDo (ht : E.Tests (n + 1) (n + 2) t m out m₁ false) :
    E.Goes (plainLines (Piece.whileDo n t body)) m out m₁ out := by
  intro pc hold
  rw [lines_whileDo] at hold ⊢
  obtain ⟨htest, -, hrest⟩ := (Image.holds_append ..).1 hold.2
  obtain ⟨-, -, hend, -⟩ := (Image.holds_append ..).1 hrest
  refine (ht pc htest).leads.at_pc (hend.trans ?_) rfl
  simp [Nat.add_assoc]

theorem turns_whileDo (ht : E.Tests (n + 1) (n + 2) t m out m₁ true)
    (hb : E.Goes (plainLines body) m₁ out m₂ out₂) :
    E.Turns (plainLines (Piece.whileDo n t body)) m out m₂ out₂ := by
  intro pc hold
  rw [lines_whileDo] at hold
  obtain ⟨hstart, hrest⟩ := hold
  obtain ⟨htest, hyes, hrest⟩ := (Image.holds_append ..).1 hrest
  obtain ⟨hbody, hjump, -⟩ := (Image.holds_append ..).1 hrest
  have hlead := (ht pc htest).leads
  rw [if_pos rfl, hyes] at hlead
  have hback : E.image.Advances ⟨pc, m, out, E.inp⟩ ⟨E.place (labelName n), m₂, out₂, E.inp⟩ :=
    (hlead.trans (hb _ hbody)).advances (Image.advances_jump hjump)
  rwa [show E.place (labelName n) = pc from hstart] at hback

theorem goes_repeatUntil (hb : E.Goes (plainLines body) m out m₁ out₁)
    (ht : E.Tests (n + 1) n t m₁ out₁ m₂ true) :
    E.Goes (plainLines (Piece.repeatUntil n body t)) m out m₂ out₁ := by
  intro pc hold
  rw [lines_repeatUntil] at hold ⊢
  obtain ⟨hbody, hrest⟩ := (Image.holds_append ..).1 hold.2
  obtain ⟨htest, hend, -⟩ := (Image.holds_append ..).1 hrest
  refine ((hb pc hbody).trans (ht _ htest).leads).at_pc (hend.trans ?_) rfl
  simp [Nat.add_assoc]

theorem turns_repeatUntil (hb : E.Goes (plainLines body) m out m₁ out₁)
    (ht : E.Tests (n + 1) n t m₁ out₁ m₂ false) :
    E.Turns (plainLines (Piece.repeatUntil n body t)) m out m₂ out₁ := by
  intro pc hold
  rw [lines_repeatUntil] at hold
  obtain ⟨hstart, hrest⟩ := hold
  obtain ⟨hbody, hrest⟩ := (Image.holds_append ..).1 hrest
  obtain ⟨htest, -⟩ := (Image.holds_append ..).1 hrest
  have hback := (hb pc hbody).advances (ht _ htest)
  rwa [if_neg Bool.false_ne_true, show E.place (labelName n) = pc from hstart] at hback

/-- The counter is past its limit. -/
theorem goes_forLoop_past (ht : E.Tests (n + 3) (n + 1) t m out m₁ true) :
    E.Goes (plainLines (Piece.forLoop n t body u step)) m out m₁ out := by
  intro pc hold
  rw [lines_forLoop] at hold ⊢
  obtain ⟨htest, -, hrest⟩ := (Image.holds_append ..).1 hold.2
  obtain ⟨-, hrest⟩ := (Image.holds_append ..).1 hrest
  obtain ⟨-, -, hrest⟩ := (Image.holds_append ..).1 hrest
  obtain ⟨-, -, hend, -⟩ := (Image.holds_append ..).1 hrest
  refine (ht pc htest).leads.at_pc (hend.trans ?_) rfl
  simp [Nat.add_assoc]

/-- The limit is reached. -/
theorem goes_forLoop_last (ht : E.Tests (n + 3) (n + 1) t m out m₁ false)
    (hb : E.Goes (plainLines body) m₁ out m₂ out₂)
    (hu : E.Tests (n + 3) (n + 2) u m₂ out₂ m₃ true) :
    E.Goes (plainLines (Piece.forLoop n t body u step)) m out m₃ out₂ := by
  intro pc hold
  rw [lines_forLoop] at hold ⊢
  obtain ⟨htest, hnext, hrest⟩ := (Image.holds_append ..).1 hold.2
  obtain ⟨hbody, hrest⟩ := (Image.holds_append ..).1 hrest
  obtain ⟨htest', -, hrest⟩ := (Image.holds_append ..).1 hrest
  obtain ⟨-, -, hend, -⟩ := (Image.holds_append ..).1 hrest
  have hlead := (ht pc htest).leads
  rw [if_neg Bool.false_ne_true, hnext] at hlead
  refine ((hlead.trans (hb _ hbody)).trans (hu _ htest').leads).at_pc (hend.trans ?_) rfl
  simp [Nat.add_assoc]

/-- The counter moves on. -/
theorem turns_forLoop (ht : E.Tests (n + 3) (n + 1) t m out m₁ false)
    (hb : E.Goes (plainLines body) m₁ out m₂ out₂)
    (hu : E.Tests (n + 3) (n + 2) u m₂ out₂ m₃ false) (hs : E.Goes step m₃ out₂ m₄ out₂) :
    E.Turns (plainLines (Piece.forLoop n t body u step)) m out m₄ out₂ := by
  intro pc hold
  rw [lines_forLoop] at hold
  obtain ⟨hstart, hrest⟩ := hold
  obtain ⟨htest, hnext, hrest⟩ := (Image.holds_append ..).1 hrest
  obtain ⟨hbody, hrest⟩ := (Image.holds_append ..).1 hrest
  obtain ⟨htest', hstep, hrest⟩ := (Image.holds_append ..).1 hrest
  obtain ⟨hlines, hjump, -⟩ := (Image.holds_append ..).1 hrest
  have hlead := (ht pc htest).leads
  rw [if_neg Bool.false_ne_true, hnext] at hlead
  have hlead' := (hu _ htest').leads
  rw [if_neg Bool.false_ne_true, hstep] at hlead'
  have hback : E.image.Advances ⟨pc, m, out, E.inp⟩ ⟨E.place (labelName n), m₄, out₂, E.inp⟩ :=
    (((hlead.trans (hb _ hbody)).trans hlead').trans (hs _ hlines)).advances
      (Image.advances_jump hjump)
  rwa [show E.place (labelName n) = pc from hstart] at hback

end Setting

/-! ### Tests -/

namespace Setting

variable {E : Setting} {room : Nat → Prop} {s s' : Stock} {c : Cond} {test : List TestLine} {m : Memory}
  {out : Vector Nat 16} {b : Bool}

/-- The test of a condition leads to the label of its outcome. -/
theorem tested (hc : Cond.Coded E.scope none s c test s') (hE : E.Ready room)
    (hw : Workspace room s []) (hm : m.Nibbles)
    (hb : c.truth E.scope.decls (E.scope.view m out) = some b) (yes no : Nat) :
    ∃ m', m'.Nibbles ∧ E.scope.view m' out = E.scope.view m out ∧ E.scope.Kept room m m' ∧
      E.Tests yes no test m out m' b := by
  have hbranches := hc.decided E.image E.place out hE.scope hw hm (labelName yes) (labelName no)
  rw [hb] at hbranches
  obtain ⟨m', hm', hsame, hleads⟩ := hbranches
  refine ⟨m', hm', hE.scope.view_congr hsame out, .of_sameBut hsame, fun pc hold => ?_⟩
  rw [apply_ite labelName]
  exact hleads pc out E.inp hold

/-- The test of a condition without truth value never ends. -/
theorem untested (hc : Cond.Coded E.scope none s c test s') (hE : E.Ready room)
    (hw : Workspace room s []) (hm : m.Nibbles)
    (hb : c.truth E.scope.decls (E.scope.view m out) = none) (yes no : Nat) :
    E.Hangs (testLines yes no test) m out := by
  have hbranches := hc.decided E.image E.place out hE.scope hw hm (labelName yes) (labelName no)
  rw [hb] at hbranches
  exact fun pc hold k => hbranches pc out E.inp hold k

/-- A counter is compared with its limit. -/
theorem tests_counter {rel : Relation} {v limit : Var} {l : Nat} (hm : m.Nibbles) (hv : v.Placed)
    (hlimit : limit.Placed) (hcells : v.cells = limit.cells) (yes no : Nat) :
    E.Tests yes no (relationTest rel v limit l) m out m (rel.holds (m.get v) (m.get limit)) := by
  intro pc hold
  rw [apply_ite labelName]
  exact advances_relationTest (p := ⟨pc, m, out, E.inp⟩) hm hv hlimit hcells hold

end Setting

/-- The limit of a loop is kept by a body that works in the spare cells. -/
theorem Scope.Kept.limit {sc : Scope} {room : Nat → Prop} {s : Stock} {limit : Var}
    {m m' : Memory} (h : sc.Kept s.memory.Spare m m') (hr : sc.Ready room)
    (hw : Workspace room s [limit]) (ht : limit.temp = true) :
    m'.get limit = m.get limit ∧ sc.Kept room m m' := by
  have hlimit : limit ∈ [limit] := .head _
  refine ⟨Memory.get_congr fun addr hc => ?_, h.mono fun _ => hw.room_of_spare⟩
  refine h addr ((hw.placed hlimit).lt_of_covers hc) ((hw.held limit hlimit).not_spare addr hc) ?_
  intro x v hx
  exact Var.apart_iff.1 (hw.apart_outside hlimit ht (hr.scalar hx)) addr hc

/-! ### Statements that end -/

/-- The lines are the code of a task. -/
inductive Task.Coded (E : Setting) (room : Nat → Prop) (m : Memory) : Task → List Line → Prop
  | stmt {s s' : Stock} {st : Stmt} {code : List Piece} (h : Stmt.Coded E.scope s st code s')
      (hw : Workspace room s []) (hp : st.portsFit = true) :
      Coded E room m (.stmt st) (plainLines code)
  | count {s s' : Stock} {x : String} {v limit : Var} {down : Bool} {body : Stmt}
      {code : List Piece} {n l₁ l₂ : Nat} (hx : E.scope.find? x = some (.scalar v))
      (hw : Workspace room s [limit]) (ht : limit.temp = true) (hwidth : limit.width = v.width)
      (h : Stmt.Coded E.scope s body code s') (hp : body.portsFit = true) :
      Coded E room m (.count x down (m.get limit) body)
        (plainLines (Piece.forLoop n (relationTest (.past down) v limit l₁) code
          (relationTest .eq v limit l₂) (advanceCounter down v)))

/-- A turn of a loop, and the turns after it. -/
theorem Setting.Executes.after_turn {E : Setting} {room : Nat → Prop} {lines : List Line} {m m₁ : Memory}
    {out out₁ : Vector Nat 16} {σ' : Store} (h : E.Turns lines m out m₁ out₁)
    (hkept : E.scope.Kept room m m₁) (h' : E.Executes room lines m₁ out₁ σ') :
    E.Executes room lines m out σ' := by
  obtain ⟨m₂, hm₂, hview, hkept₂, hgoes⟩ := h'
  exact ⟨m₂, hm₂, hview, hkept.trans hkept₂, fun pc hold => (h pc hold).leads.trans (hgoes pc hold)⟩

theorem transforms_advanceCounter {m : Memory} {v : Var} (down : Bool) (hm : m.Nibbles)
    (hv : v.Placed) : Transforms (advanceCounter down v) m
      (m.set v ((if down then StepOp.dec else .inc).apply v.width.limit (m.get v))) := by
  cases down with
  | true => exact transforms_stepOp .dec hm hv
  | false => exact transforms_stepOp .inc hm hv

/-- Whether the counter is past its limit. -/
theorem Setting.tests_past (E : Setting) {v limit : Var} {m : Memory} (down : Bool) (l : Nat)
    (hm : m.Nibbles) (hv : v.Placed) (hlimit : limit.Placed) (hwidth : limit.width = v.width)
    (out : Vector Nat 16) (yes no : Nat) :
    E.Tests yes no (relationTest (.past down) v limit l) m out m
      (isPast down (m.get v) (m.get limit)) := by
  have hpast : isPast down (m.get v) (m.get limit) =
      (Relation.past down).holds (m.get v) (m.get limit) := by cases down <;> rfl
  rw [hpast]
  exact tests_counter hm hv hlimit (congrArg Width.cells hwidth).symm yes no

/-- Whether the limit is reached. -/
theorem Setting.tests_done (E : Setting) {v limit : Var} {m : Memory} (l : Nat)
    (hm : m.Nibbles) (hv : v.Placed) (hlimit : limit.Placed) (hwidth : limit.width = v.width)
    (out : Vector Nat 16) (yes no : Nat) :
    E.Tests yes no (relationTest .eq v limit l) m out m (m.get v == m.get limit) :=
  tests_counter hm hv hlimit (congrArg Width.cells hwidth).symm yes no

/-- The counter moves on, and the limit stays. -/
theorem counter_moves {E : Setting} {room : Nat → Prop} {s : Stock} {x : String} {v limit : Var}
    {m : Memory} {σ : Store} (hE : E.Ready room) (hx : E.scope.find? x = some (.scalar v))
    (hw : Workspace room s [limit]) (ht : limit.temp = true) (down : Bool) (hm : m.Nibbles)
    (hview : E.scope.view m σ.out = σ) :
    ∃ m', m'.Nibbles ∧
      E.scope.view m' σ.out = σ.setScalar x
        ((if down then StepOp.dec else .inc).apply v.width.limit (σ.scalar x)) ∧
      m'.get limit = m.get limit ∧ E.scope.Kept room m m' ∧
      E.Goes (advanceCounter down v) m σ.out m' σ.out := by
  have hscalar : σ.scalar x = m.get v := by rw [← hview, Scope.view_scalar hx]
  have hlt : m.get v < v.width.limit := Memory.get_lt hm v
  rw [hscalar]
  refine ⟨_, Memory.nibbles_set hm, ?_, ?_, Scope.kept_set hx _,
    .of_turns (.of_transforms (transforms_advanceCounter down hm (hE.scope.scalar hx).placed))⟩
  · rw [hE.scope.view_set hx, Nat.mod_eq_of_lt (StepOp.apply_lt _ hlt), hview]
  · exact Memory.get_set_of_apart (hw.apart_outside (.head _) ht (hE.scope.scalar hx))

/-- A turn of a counted loop up to the test whether the limit is reached. -/
theorem counter_turns {E : Setting} {room : Nat → Prop} {s : Stock} {x : String} {v limit : Var}
    {m : Memory} {out : Vector Nat 16} {body : List Piece} {σ : Store} {down : Bool}
    (hE : E.Ready room) (hx : E.scope.find? x = some (.scalar v)) (hw : Workspace room s [limit])
    (ht : limit.temp = true) (hwidth : limit.width = v.width) (hm : m.Nibbles)
    (hpast : isPast down ((E.scope.view m out).scalar x) (m.get limit) = false)
    (hbody : E.Executes s.memory.Spare (plainLines body) m out σ) (n l₁ l₂ : Nat) :
    ∃ m₁, m₁.Nibbles ∧ E.scope.view m₁ σ.out = σ ∧ m₁.get limit = m.get limit ∧
      E.scope.Kept room m m₁ ∧ E.Goes (plainLines body) m out m₁ σ.out ∧
      E.Tests (n + 3) (n + 1) (relationTest (.past down) v limit l₁) m out m false ∧
      E.Tests (n + 3) (n + 2) (relationTest .eq v limit l₂) m₁ σ.out m₁
        (σ.scalar x == m.get limit) := by
  have hplaced := (hE.scope.scalar hx).placed
  have hplaced' := hw.placed (v := limit) (.head _)
  have htests := E.tests_past down l₁ hm hplaced hplaced' hwidth out (n + 3) (n + 1)
  rw [Scope.view_scalar hx] at hpast
  rw [hpast] at htests
  obtain ⟨m₁, hm₁, hview₁, hkept₁, hgoes⟩ := hbody
  obtain ⟨hget, hkept⟩ := hkept₁.limit hE.scope hw ht
  have htests' := E.tests_done l₂ hm₁ hplaced hplaced' hwidth σ.out (n + 3) (n + 2)
  rw [hget, ← Scope.view_scalar hx, hview₁] at htests'
  exact ⟨m₁, hm₁, hview₁, hget, hkept, hgoes, htests, htests'⟩

/-- The limit of a counted loop is computed into its temporary. -/
theorem yields_limit {E : Setting} {room : Nat → Prop} {s s₂ s₃ : Stock} {last : Expr}
    {lines : List Line} {bound limit : Var} {w : Width} {m : Memory} (out : Vector Nat 16)
    (hl : Expr.Coded E.scope s last lines bound s₂) (ht : s₂.Takes w limit s₃)
    (hE : E.Ready room) (hw : Workspace room s []) (hm : m.Nibbles) :
    E.image.Yields E.place (lines ++ (resize bound limit ++ freeLines bound)) room m limit
      ((last.value E.scope.decls (E.scope.view m out)).map fun b => ⟨w, b.num % w.limit⟩) := by
  have hw₂ := hl.books hE.scope.ledger hw
  obtain ⟨hw₃, hwidth, htemp, hspare⟩ := hw₂.take ht
  have hplaced := hw₃.placed (v := limit) (.head _)
  have hclear := (hw₃.apart_head htemp (.head _)).symm.clear
  rw [Option.map_eq_bind]
  refine (hl.yields E.image E.place out hE.scope hw hm).bind (fun _ => hw.room_of_spare)
    fun m₁ b hm₁ _ hget _ => ?_
  refine ⟨m₁.set limit (m₁.get bound), .append (.of_transforms (transforms_resize hm₁
    (hw₂.placed (.head _)) hplaced hclear)) (Image.turns_freeLines bound _),
    Memory.nibbles_set hm₁, Memory.sameBut_set (fun addr hc => hw₂.room_of_spare (hspare addr hc)) _,
    ?_, hwidth⟩
  rw [Memory.get_set_same hplaced, hget, Var.cells, hwidth]
  rfl

/-- The counter is assigned and then the limit computed, unless one of the two never ends. -/
theorem counter_starts {E : Setting} {room : Nat → Prop} {s s₁ s₂ s₃ : Stock} {x : Token}
    {first last : Expr} {v start bound limit : Var} {lines₁ lines₂ : List Line} {m : Memory}
    (out : Vector Nat 16) (hx : E.scope.find? x.text = some (.scalar v))
    (hf : Expr.Coded E.scope s first lines₁ start s₁)
    (hl : Expr.Coded E.scope (s₁.release start) last lines₂ bound s₂)
    (ht : s₂.Takes v.width limit s₃) (hE : E.Ready room) (hw : Workspace room s [])
    (hm : m.Nibbles) :
    let lines := lines₁ ++ (resize start v ++ (freeLines start ++ (lines₂
      ++ (resize bound limit ++ freeLines bound))))
    let assigned (a : Val) := (E.scope.view m out).setScalar x.text (a.num % v.width.limit)
    (E.Hangs lines m out ∧ ∀ a, first.value E.scope.decls (E.scope.view m out) = some a →
        last.value E.scope.decls (assigned a) = none) ∨
      ∃ a b m', first.value E.scope.decls (E.scope.view m out) = some a ∧
        last.value E.scope.decls (assigned a) = some b ∧ m'.Nibbles ∧
        E.scope.view m' out = assigned a ∧ E.scope.Kept room m m' ∧
        E.Goes lines m out m' out ∧ m'.get limit = b.num % v.width.limit := by
  intro lines assigned
  have hlines : lines = (lines₁ ++ (resize start v ++ freeLines start))
      ++ (lines₂ ++ (resize bound limit ++ freeLines bound)) := by simp [lines]
  have hw₁ := (hf.books hE.scope.ledger hw).release
  have hassign := (Stmt.Coded.assign hx hf).performs out hE hw rfl rfl hm
  simp only [Stmt.effect, Scope.decls_scalar? hx, Option.bind_eq_bind, Option.bind_some,
    Piece.map_plain_ofLines] at hassign
  rw [hlines]
  cases ha : first.value E.scope.decls (E.scope.view m out) with
  | none =>
    rw [ha] at hassign
    refine .inl ⟨Setting.Hangs.append_right hassign, ?_⟩
    rintro _ ⟨⟩
  | some a =>
    rw [ha] at hassign
    obtain ⟨m₁, hm₁, hview₁, hkept₁, hgoes₁⟩ := hassign
    have hview₁ : E.scope.view m₁ out = assigned a := hview₁
    have hyields := yields_limit out hl ht hE hw₁ hm₁
    rw [hview₁] at hyields
    cases hb : last.value E.scope.decls (assigned a) with
    | none =>
      rw [hb] at hyields
      refine .inl ⟨hgoes₁.hangs fun pc hold => hyields pc out E.inp hold, ?_⟩
      rintro _ ⟨rfl⟩
      exact hb
    | some b =>
      rw [hb] at hyields
      obtain ⟨m₂, hturns₂, hm₂, hsame₂, hget₂, -⟩ := hyields
      exact .inr ⟨a, b, m₂, rfl, hb, hm₂, (hE.scope.view_congr hsame₂ out).trans hview₁,
        hkept₁.trans (.of_sameBut hsame₂), hgoes₁.append (.of_turns hturns₂), hget₂⟩

/-- The code of a task that runs to its end. -/
theorem Task.Runs.executes {E : Setting} {task : Task} {σ σ' : Store}
    (h : Task.Runs E.scope.decls E.inp task σ σ') {room : Nat → Prop} {m : Memory}
    {out : Vector Nat 16} {lines : List Line} (hE : E.Ready room) (hm : m.Nibbles)
    (hview : E.scope.view m out = σ) (hcoded : Task.Coded E room m task lines) :
    E.Executes room lines m out σ' := by
  -- by induction on the run; a loop that goes on has the same code for the turns that are left
  induction h generalizing room m out lines with
  | effect hst =>
    cases hcoded with
    | stmt h hw hp =>
      have hperforms := h.performs out hE hw (Stmt.isSingle_of_effect hst) hp hm
      rw [← hview] at hst
      rwa [hst] at hperforms
  | seq _ _ ihf ihr =>
    cases hcoded with
    | stmt h hw hp =>
      cases h with
      | seq hf hr =>
        obtain ⟨hpf, hpr⟩ := Bool.and_eq_true_iff.1 hp
        rw [plainLines, List.map_append]
        exact (ihf hE hm hview (.stmt hf hw hpf)).append fun m' hm' hview' _ =>
          ihr hE hm' hview' (.stmt hr (hf.books hE.scope.ledger hw) hpr)
  | block _ ih =>
    cases hcoded with
    | stmt h hw hp =>
      cases h with
      | block h => exact ih hE hm hview (.stmt h hw hp)
  | thenTrue hc _ ih =>
    cases hcoded with
    | stmt h hw hp =>
      cases h with
      | ifThen hcond hy =>
        subst hview
        obtain ⟨m₁, hm₁, hview₁, hkept, htests⟩ := Setting.tested hcond hE (hw.skip 3) hm hc _ _
        obtain ⟨m₂, hm₂, hview₂, hkept₂, hgoes⟩ := ih hE hm₁ hview₁
          (.stmt hy (hcond.books hE.scope.ledger (hw.skip 3)) hp)
        exact ⟨m₂, hm₂, hview₂, hkept.trans hkept₂, Setting.goes_ifThen_true htests hgoes⟩
  | thenFalse hc =>
    cases hcoded with
    | stmt h hw hp =>
      cases h with
      | ifThen hcond hy =>
        subst hview
        obtain ⟨m₁, hm₁, hview₁, hkept, htests⟩ := Setting.tested hcond hE (hw.skip 3) hm hc _ _
        exact ⟨m₁, hm₁, hview₁, hkept, Setting.goes_ifThen_false htests⟩
  | elseTrue hc _ ih =>
    cases hcoded with
    | stmt h hw hp =>
      cases h with
      | ifElse hcond hy hn =>
        subst hview
        obtain ⟨m₁, hm₁, hview₁, hkept, htests⟩ := Setting.tested hcond hE (hw.skip 3) hm hc _ _
        obtain ⟨m₂, hm₂, hview₂, hkept₂, hgoes⟩ := ih hE hm₁ hview₁
          (.stmt hy (hcond.books hE.scope.ledger (hw.skip 3)) (Bool.and_eq_true_iff.1 hp).1)
        exact ⟨m₂, hm₂, hview₂, hkept.trans hkept₂, Setting.goes_ifElse_true htests hgoes⟩
  | elseFalse hc _ ih =>
    cases hcoded with
    | stmt h hw hp =>
      cases h with
      | ifElse hcond hy hn =>
        subst hview
        have hw₁ := hcond.books hE.scope.ledger (hw.skip 3)
        obtain ⟨m₁, hm₁, hview₁, hkept, htests⟩ := Setting.tested hcond hE (hw.skip 3) hm hc _ _
        obtain ⟨m₂, hm₂, hview₂, hkept₂, hgoes⟩ := ih hE hm₁ hview₁
          (.stmt hn (hy.books hE.scope.ledger hw₁) (Bool.and_eq_true_iff.1 hp).2)
        exact ⟨m₂, hm₂, hview₂, hkept.trans hkept₂, Setting.goes_ifElse_false htests hgoes⟩
  | whileFalse hc =>
    cases hcoded with
    | stmt h hw hp =>
      cases h with
      | whileDo hcond hb =>
        subst hview
        obtain ⟨m₁, hm₁, hview₁, hkept, htests⟩ := Setting.tested hcond hE (hw.skip 3) hm hc _ _
        exact ⟨m₁, hm₁, hview₁, hkept, Setting.goes_whileDo htests⟩
  | whileTrue hc _ _ ihb ihr =>
    cases hcoded with
    | stmt h hw hp =>
      cases h with
      | whileDo hcond hb =>
        subst hview
        obtain ⟨m₁, hm₁, hview₁, hkept, htests⟩ := Setting.tested hcond hE (hw.skip 3) hm hc _ _
        obtain ⟨m₂, hm₂, hview₂, hkept₂, hgoes⟩ := ihb hE hm₁ hview₁
          (.stmt hb (hcond.books hE.scope.ledger (hw.skip 3)) hp)
        exact .after_turn (Setting.turns_whileDo htests hgoes) (hkept.trans hkept₂)
          (ihr hE hm₂ hview₂ (.stmt (.whileDo hcond hb) hw hp))
  | repeatTrue _ hc ihb =>
    cases hcoded with
    | stmt h hw hp =>
      cases h with
      | repeatUntil hb hcond =>
        have hw₁ := hb.books hE.scope.ledger (hw.skip 2)
        obtain ⟨m₁, hm₁, hview₁, hkept₁, hgoes⟩ := ihb hE hm hview (.stmt hb (hw.skip 2) hp)
        rw [← hview₁] at hc
        obtain ⟨m₂, hm₂, hview₂, hkept₂, htests⟩ := Setting.tested hcond hE hw₁ hm₁ hc _ _
        exact ⟨m₂, hm₂, hview₂.trans hview₁, hkept₁.trans hkept₂,
          Setting.goes_repeatUntil hgoes htests⟩
  | repeatFalse _ hc _ ihb ihr =>
    cases hcoded with
    | stmt h hw hp =>
      cases h with
      | repeatUntil hb hcond =>
        have hw₁ := hb.books hE.scope.ledger (hw.skip 2)
        obtain ⟨m₁, hm₁, hview₁, hkept₁, hgoes⟩ := ihb hE hm hview (.stmt hb (hw.skip 2) hp)
        rw [← hview₁] at hc
        obtain ⟨m₂, hm₂, hview₂, hkept₂, htests⟩ := Setting.tested hcond hE hw₁ hm₁ hc _ _
        exact .after_turn (Setting.turns_repeatUntil hgoes htests) (hkept₁.trans hkept₂)
          (ihr hE hm₂ (hview₂.trans hview₁) (.stmt (.repeatUntil hb hcond) hw hp))
  | @forDo x down first last gate body w a b σ σ' hx hf hl _ ih =>
    cases hcoded with
    | @stmt s _ _ _ h hw hp =>
      cases h with
      | @forDo _ s₁ s₂ s₃ s₄ _ _ _ _ _ v start bound limit lines₁ lines₂ code hv hfirst hlast ht
          hwidth hbody =>
        subst hview
        have hv : E.scope.find? x.text = some (.scalar v) := hv
        obtain rfl : v.width = w := by simpa [Scope.decls_scalar? hv] using hx
        have hw₁ := (hfirst.books hE.scope.ledger hw).release
        have hlimit := hE.scope.ledger.limit hfirst hlast ht hw
        have htemp := ((hlast.books hE.scope.ledger hw₁).take ht).2.2.1
        obtain ⟨-, hnone⟩ | ⟨a', b', m₁, ha, hb, hm₁, hview₁, hkept₁, hgoes₁, hget₁⟩ :=
          counter_starts out hv hfirst hlast ht hE hw hm
        · simp [hnone a hf] at hl
        · obtain rfl : a = a' := by simpa using hf.symm.trans ha
          obtain rfl : b = b' := by simpa using hl.symm.trans hb
          have hcount : Task.Coded E room m₁ (.count x.text down (m₁.get limit) body)
              (plainLines (Piece.forLoop s₃.labels (relationTest (.past down) v limit
                (s₃.labels + 4)) code (relationTest .eq v limit s₄.labels)
                (advanceCounter down v))) :=
            .count hv ((hlimit.skip 4).skip _) htemp hwidth hbody hp
          rw [hget₁] at hcount
          obtain ⟨m₂, hm₂, hview₂, hkept₂, hgoes₂⟩ := ih hE hm₁ hview₁ hcount
          refine ⟨m₂, hm₂, hview₂, hkept₁.trans hkept₂, ?_⟩
          rw [plainLines, List.map_append, List.map_append, Piece.map_plain_ofLines,
            Piece.map_plain_ofLines]
          exact hgoes₁.append (hgoes₂.append (.of_turns (Image.turns_freeLines limit m₂)))
  | @countPast x down _ body σ hpast =>
    cases hcoded with
    | @count _ _ _ v limit _ _ code n l₁ l₂ hx hw ht hwidth h hp =>
      subst hview
      have htests := E.tests_past down l₁ hm (hE.scope.scalar hx).placed (hw.placed (.head _)) hwidth
        out (n + 3) (n + 1)
      rw [Scope.view_scalar hx] at hpast
      rw [hpast] at htests
      exact ⟨m, hm, rfl, Scope.Kept.refl _ _ _, Setting.goes_forLoop_past htests⟩
  | @countLast x down _ body σ σ₁ hpast _ he ihb =>
    cases hcoded with
    | @count s _ _ v limit _ _ code n l₁ l₂ hx hw ht hwidth h hp =>
      subst hview
      obtain ⟨m₁, hm₁, hview₁, -, hkept, hgoes, htests, htests'⟩ :=
        counter_turns hE hx hw ht hwidth hm hpast
          (ihb (hE.mono fun _ => hw.room_of_spare) hm rfl (.stmt h (.of_sound hw.sound) hp)) n l₁ l₂
      rw [he, beq_self_eq_true] at htests'
      exact ⟨m₁, hm₁, hview₁, hkept, Setting.goes_forLoop_last htests hgoes htests'⟩
  | @countNext x down _ body w σ σ₁ σ₂ hwd hpast _ he _ ihb ihr =>
    cases hcoded with
    | @count s s' _ v limit _ _ code n l₁ l₂ hx hw ht hwidth h hp =>
      subst hview
      obtain rfl : v.width = w := by simpa [Scope.decls_scalar? hx] using hwd
      obtain ⟨m₁, hm₁, hview₁, hget, hkept, hgoes, htests, htests'⟩ :=
        counter_turns hE hx hw ht hwidth hm hpast
          (ihb (hE.mono fun _ => hw.room_of_spare) hm rfl (.stmt h (.of_sound hw.sound) hp)) n l₁ l₂
      rw [beq_eq_false_iff_ne.2 he] at htests'
      obtain ⟨m₂, hm₂, hview₂, hget₂, hkept₂, hstep⟩ :=
        counter_moves hE hx hw ht down hm₁ hview₁
      have hcount : Task.Coded E room m₂ (.count x down (m₂.get limit) body)
          (plainLines (Piece.forLoop n (relationTest (.past down) v limit l₁) code
            (relationTest .eq v limit l₂) (advanceCounter down v))) :=
        .count hx hw ht hwidth h hp
      rw [hget₂, hget] at hcount
      exact .after_turn (Setting.turns_forLoop htests hgoes htests' hstep) (hkept.trans hkept₂)
        (ihr hE hm₂ hview₂ hcount)

/-! ### Statements that never end -/

namespace Setting

variable {E : Setting} {n : Nat} {t u : List TestLine} {body first second : List Piece}
  {lines step : List Line} {m m₁ m₂ : Memory} {out out₁ : Vector Nat 16}

/-- A loop that either hangs or makes another turn never ends. -/
theorem hangs_of_turns {P : Memory → Vector Nat 16 → Prop}
    (h : ∀ m out, P m out →
      E.Hangs lines m out ∨ ∃ m' out', E.Turns lines m out m' out' ∧ P m' out')
    (hP : P m out) : E.Hangs lines m out := by
  intro pc hold k
  induction k generalizing m out with
  | zero => exact .zero _
  | succ k ih =>
    obtain hhangs | ⟨m', out', hturns, hP'⟩ := h m out hP
    · exact hhangs pc hold (k + 1)
    · exact .of_advances (hturns pc hold) (ih hP')

theorem Hangs.label (n : Nat) (h : E.Hangs lines m out) : E.Hangs (label n :: lines) m out :=
  fun pc hold => h pc hold.2

theorem hangs_ifThen (ht : E.Tests n (n + 2) t m out m₁ true)
    (hb : E.Hangs (plainLines body) m₁ out) :
    E.Hangs (plainLines (Piece.ifThen n t body)) m out := by
  intro pc hold k
  rw [lines_ifThen] at hold
  obtain ⟨htest, hyes, hrest⟩ := (Image.holds_append ..).1 hold
  obtain ⟨hbody, -⟩ := (Image.holds_append ..).1 hrest
  have hlead := (ht pc htest).leads
  rw [if_pos rfl, hyes] at hlead
  exact .of_leads hlead (hb _ hbody k)

theorem hangs_ifElse_true (ht : E.Tests n (n + 1) t m out m₁ true)
    (hb : E.Hangs (plainLines first) m₁ out) :
    E.Hangs (plainLines (Piece.ifElse n t first second)) m out := by
  intro pc hold k
  rw [lines_ifElse] at hold
  obtain ⟨htest, hyes, hrest⟩ := (Image.holds_append ..).1 hold
  obtain ⟨hfirst, -⟩ := (Image.holds_append ..).1 hrest
  have hlead := (ht pc htest).leads
  rw [if_pos rfl, hyes] at hlead
  exact .of_leads hlead (hb _ hfirst k)

theorem hangs_ifElse_false (ht : E.Tests n (n + 1) t m out m₁ false)
    (hb : E.Hangs (plainLines second) m₁ out) :
    E.Hangs (plainLines (Piece.ifElse n t first second)) m out := by
  intro pc hold k
  rw [lines_ifElse] at hold
  obtain ⟨htest, -, hrest⟩ := (Image.holds_append ..).1 hold
  obtain ⟨-, -, hno, hrest⟩ := (Image.holds_append ..).1 hrest
  obtain ⟨hsecond, -⟩ := (Image.holds_append ..).1 hrest
  have hlead := (ht pc htest).leads
  rw [if_neg Bool.false_ne_true, hno] at hlead
  exact .of_leads hlead (hb _ hsecond k)

theorem hangs_whileDo (ht : E.Tests (n + 1) (n + 2) t m out m₁ true)
    (hb : E.Hangs (plainLines body) m₁ out) :
    E.Hangs (plainLines (Piece.whileDo n t body)) m out := by
  intro pc hold k
  rw [lines_whileDo] at hold
  obtain ⟨htest, hyes, hrest⟩ := (Image.holds_append ..).1 hold.2
  obtain ⟨hbody, -⟩ := (Image.holds_append ..).1 hrest
  have hlead := (ht pc htest).leads
  rw [if_pos rfl, hyes] at hlead
  exact .of_leads hlead (hb _ hbody k)

theorem hangs_repeatUntil (hb : E.Goes (plainLines body) m out m₁ out₁)
    (ht : E.Hangs (testLines (n + 1) n t) m₁ out₁) :
    E.Hangs (plainLines (Piece.repeatUntil n body t)) m out := by
  rw [lines_repeatUntil]
  exact (hb.hangs ht.append_right).label n

theorem hangs_forLoop (ht : E.Tests (n + 3) (n + 1) t m out m₁ false)
    (hb : E.Hangs (plainLines body) m₁ out) :
    E.Hangs (plainLines (Piece.forLoop n t body u step)) m out := by
  intro pc hold k
  rw [lines_forLoop] at hold
  obtain ⟨htest, hnext, hrest⟩ := (Image.holds_append ..).1 hold.2
  obtain ⟨hbody, -⟩ := (Image.holds_append ..).1 hrest
  have hlead := (ht pc htest).leads
  rw [if_neg Bool.false_ne_true, hnext] at hlead
  exact .of_leads hlead (hb _ hbody k)

end Setting

namespace Stmt.Coded

variable {E : Setting} {room : Nat → Prop} {s s' : Stock} {st : Stmt} {code : List Piece}
  {m : Memory} {out : Vector Nat 16}

/-- The statement runs to an end from the contents of the memory. -/
def Ends (E : Setting) (st : Stmt) (m : Memory) (out : Vector Nat 16) : Prop :=
  ∃ σ', Task.Runs E.scope.decls E.inp (.stmt st) (E.scope.view m out) σ'

theorem hangs_single (h : Coded E.scope s st code s') (hE : E.Ready room)
    (hw : Workspace room s []) (hsingle : st.isSingle = true) (hp : st.portsFit = true)
    (hm : m.Nibbles) (hnot : ¬ Ends E st m out) : E.Hangs (plainLines code) m out := by
  have hperforms := h.performs out hE hw hsingle hp hm
  cases heffect : st.effect E.scope.decls E.inp (E.scope.view m out) with
  | none => rwa [heffect] at hperforms
  | some σ' => exact absurd ⟨σ', .effect heffect⟩ hnot

/-- The code of a statement that ends. -/
theorem executes (h : Coded E.scope s st code s') (hE : E.Ready room) (hw : Workspace room s [])
    (hp : st.portsFit = true) (hm : m.Nibbles) {σ' : Store}
    (hruns : Task.Runs E.scope.decls E.inp (.stmt st) (E.scope.view m out) σ') :
    E.Executes room (plainLines code) m out σ' :=
  hruns.executes hE hm rfl (.stmt h hw hp)

theorem hangs_while {c : Cond} {gate : Gate} {body : Stmt} {test : List TestLine} {s₁ s₂ : Stock}
    (hc : Cond.Coded E.scope none (s.skip 3) c test s₁) (hb : Coded E.scope s₁ body code s₂)
    (hE : E.Ready room) (hw : Workspace room s []) (hp : body.portsFit = true)
    (ih : ∀ {m out}, m.Nibbles → ¬ Ends E body m out → E.Hangs (plainLines code) m out)
    (hm : m.Nibbles) (hnot : ¬ Ends E (.whileDo c gate body) m out) :
    E.Hangs (plainLines (Piece.whileDo s.labels test code)) m out := by
  refine Setting.hangs_of_turns (P := fun m out => m.Nibbles ∧ ¬ Ends E (.whileDo c gate body) m out)
    ?_ ⟨hm, hnot⟩
  rintro m out ⟨hm, hnot⟩
  have hw₁ := hc.books hE.scope.ledger (hw.skip 3)
  cases htruth : c.truth E.scope.decls (E.scope.view m out) with
  | none =>
    refine .inl ?_
    rw [lines_whileDo]
    exact (Setting.untested hc hE (hw.skip 3) hm htruth _ _).append_right.label _
  | some b =>
    cases b with
    | false => exact absurd ⟨_, .whileFalse htruth⟩ hnot
    | true =>
      obtain ⟨m₁, hm₁, hview₁, -, htests⟩ := Setting.tested hc hE (hw.skip 3) hm htruth
        (s.labels + 1) (s.labels + 2)
      by_cases hbody : Ends E body m₁ out
      · obtain ⟨σ₁, hruns⟩ := hbody
        obtain ⟨m₂, hm₂, hview₂, -, hgoes⟩ := hb.executes hE hw₁ hp hm₁ hruns
        refine .inr ⟨m₂, σ₁.out, Setting.turns_whileDo htests hgoes, hm₂, ?_⟩
        rintro ⟨σ₂, hrest⟩
        rw [hview₂] at hrest
        exact hnot ⟨σ₂, .whileTrue htruth (hview₁ ▸ hruns) hrest⟩
      · exact .inl (Setting.hangs_whileDo htests (ih hm₁ hbody))

theorem hangs_repeat {c : Cond} {body : Stmt} {test : List TestLine} {s₁ s₂ : Stock}
    (hb : Coded E.scope (s.skip 2) body code s₁) (hc : Cond.Coded E.scope none s₁ c test s₂)
    (hE : E.Ready room) (hw : Workspace room s []) (hp : body.portsFit = true)
    (ih : ∀ {m out}, m.Nibbles → ¬ Ends E body m out → E.Hangs (plainLines code) m out)
    (hm : m.Nibbles) (hnot : ¬ Ends E (.repeatUntil body c) m out) :
    E.Hangs (plainLines (Piece.repeatUntil s.labels code test)) m out := by
  refine Setting.hangs_of_turns (P := fun m out => m.Nibbles ∧ ¬ Ends E (.repeatUntil body c) m out)
    ?_ ⟨hm, hnot⟩
  rintro m out ⟨hm, hnot⟩
  have hw₁ := hb.books hE.scope.ledger (hw.skip 2)
  by_cases hbody : Ends E body m out
  · obtain ⟨σ₁, hruns⟩ := hbody
    obtain ⟨m₁, hm₁, hview₁, -, hgoes⟩ := hb.executes hE (hw.skip 2) hp hm hruns
    cases htruth : c.truth E.scope.decls (E.scope.view m₁ σ₁.out) with
    | none =>
      exact .inl (Setting.hangs_repeatUntil hgoes (Setting.untested hc hE hw₁ hm₁ htruth _ _))
    | some b =>
      obtain ⟨m₂, hm₂, hview₂, -, htests⟩ := Setting.tested hc hE hw₁ hm₁ htruth (s.labels + 1)
        s.labels
      rw [hview₁] at htruth
      cases b with
      | true => exact absurd ⟨_, .repeatTrue hruns htruth⟩ hnot
      | false =>
        refine .inr ⟨m₂, σ₁.out, Setting.turns_repeatUntil hgoes htests, hm₂, ?_⟩
        rintro ⟨σ₂, hrest⟩
        rw [hview₂, hview₁] at hrest
        exact hnot ⟨σ₂, .repeatFalse hruns htruth hrest⟩
  · refine .inl ?_
    rw [lines_repeatUntil]
    exact (ih hm hbody).append_right.label _

/-- The turns of a counted loop. -/
theorem hangs_count {x : String} {v limit : Var} {down : Bool} {body : Stmt} {n l₁ l₂ : Nat}
    (hx : E.scope.find? x = some (.scalar v)) (hw : Workspace room s [limit])
    (ht : limit.temp = true) (hwidth : limit.width = v.width)
    (hb : Coded E.scope s body code s') (hE : E.Ready room) (hp : body.portsFit = true)
    (ih : ∀ {m out}, m.Nibbles → ¬ Ends E body m out → E.Hangs (plainLines code) m out)
    (hm : m.Nibbles)
    (hnot : ¬ ∃ σ', Task.Runs E.scope.decls E.inp (.count x down (m.get limit) body)
      (E.scope.view m out) σ') :
    E.Hangs (plainLines (Piece.forLoop n (relationTest (.past down) v limit l₁) code
      (relationTest .eq v limit l₂) (advanceCounter down v))) m out := by
  refine Setting.hangs_of_turns (P := fun m out => m.Nibbles ∧
    ¬ ∃ σ', Task.Runs E.scope.decls E.inp (.count x down (m.get limit) body)
      (E.scope.view m out) σ') ?_ ⟨hm, hnot⟩
  rintro m out ⟨hm, hnot⟩
  have hE' := hE.mono fun _ => hw.room_of_spare
  cases hpast : isPast down ((E.scope.view m out).scalar x) (m.get limit) with
  | true => exact absurd ⟨_, .countPast hpast⟩ hnot
  | false =>
    by_cases hbody : Ends E body m out
    · obtain ⟨σ₁, hruns⟩ := hbody
      obtain ⟨m₁, hm₁, hview₁, hget, -, hgoes, htests, htests'⟩ := counter_turns hE hx hw ht hwidth hm
        hpast (hb.executes hE' (.of_sound hw.sound) hp hm hruns) n l₁ l₂
      by_cases hdone : σ₁.scalar x = m.get limit
      · exact absurd ⟨_, .countLast hpast hruns hdone⟩ hnot
      · rw [beq_eq_false_iff_ne.2 hdone] at htests'
        obtain ⟨m₂, hm₂, hview₂, hget₂, -, hstep⟩ := counter_moves hE hx hw ht down hm₁ hview₁
        refine .inr ⟨m₂, σ₁.out, Setting.turns_forLoop htests hgoes htests' hstep, hm₂, ?_⟩
        rintro ⟨σ₂, hrest⟩
        rw [hview₂, hget₂, hget] at hrest
        exact hnot ⟨σ₂, .countNext (Scope.decls_scalar? hx) hpast hruns hdone hrest⟩
    · have htests := E.tests_past down l₁ hm (hE.scope.scalar hx).placed (hw.placed (.head _)) hwidth
        out (n + 3) (n + 1)
      rw [Scope.view_scalar hx] at hpast
      rw [hpast] at htests
      exact .inl (Setting.hangs_forLoop htests (ih hm hbody))

/-- The code of a statement that never ends. -/
theorem hangs (h : Coded E.scope s st code s') (hE : E.Ready room)
    (hcalls : ∀ p, E.scope.hasProcedure p = false) (hw : Workspace room s [])
    (hp : st.portsFit = true) (hm : m.Nibbles) (hnot : ¬ Ends E st m out) :
    E.Hangs (plainLines code) m out := by
  induction h generalizing room m out with
  | @seq s s₁ s₂ first rest code₁ code₂ hf hr ihf ihr =>
    obtain ⟨hpf, hpr⟩ := Bool.and_eq_true_iff.1 hp
    rw [plainLines, List.map_append]
    by_cases hfirst : Ends E first m out
    · obtain ⟨σ₁, hruns⟩ := hfirst
      obtain ⟨m₁, hm₁, hview₁, -, hgoes⟩ := hf.executes hE hw hpf hm hruns
      refine hgoes.hangs (ihr hE (hf.books hE.scope.ledger hw) hpr hm₁ ?_)
      rintro ⟨σ₂, hrest⟩
      exact hnot ⟨σ₂, .seq hruns (hview₁ ▸ hrest)⟩
    · exact (ihf hE hw hpf hm hfirst).append_right
  | block _ ih =>
    exact ih hE hw hp hm fun ⟨σ', hruns⟩ => hnot ⟨σ', .block hruns⟩
  | call hproc => simp [hcalls] at hproc
  | asm => cases hp
  | @ifThen s s₁ s₂ c yes test code hc hy ih =>
    cases htruth : c.truth E.scope.decls (E.scope.view m out) with
    | none =>
      rw [lines_ifThen]
      exact (Setting.untested hc hE (hw.skip 3) hm htruth _ _).append_right
    | some b =>
      cases b with
      | false => exact absurd ⟨_, .thenFalse htruth⟩ hnot
      | true =>
        obtain ⟨m₁, hm₁, hview₁, -, htests⟩ := Setting.tested hc hE (hw.skip 3) hm htruth s.labels
          (s.labels + 2)
        refine Setting.hangs_ifThen htests (ih hE (hc.books hE.scope.ledger (hw.skip 3)) hp hm₁ ?_)
        rintro ⟨σ', hruns⟩
        exact hnot ⟨σ', .thenTrue htruth (hview₁ ▸ hruns)⟩
  | @ifElse s s₁ s₂ s₃ c yes no test code₁ code₂ hc hy hn ihy ihn =>
    obtain ⟨hpy, hpn⟩ := Bool.and_eq_true_iff.1 hp
    have hw₁ := hc.books hE.scope.ledger (hw.skip 3)
    cases htruth : c.truth E.scope.decls (E.scope.view m out) with
    | none =>
      rw [lines_ifElse]
      exact (Setting.untested hc hE (hw.skip 3) hm htruth _ _).append_right
    | some b =>
      obtain ⟨m₁, hm₁, hview₁, -, htests⟩ := Setting.tested hc hE (hw.skip 3) hm htruth s.labels
        (s.labels + 1)
      cases b with
      | true =>
        refine Setting.hangs_ifElse_true htests (ihy hE hw₁ hpy hm₁ ?_)
        rintro ⟨σ', hruns⟩
        exact hnot ⟨σ', .elseTrue htruth (hview₁ ▸ hruns)⟩
      | false =>
        refine Setting.hangs_ifElse_false htests (ihn hE (hy.books hE.scope.ledger hw₁) hpn hm₁ ?_)
        rintro ⟨σ', hruns⟩
        exact hnot ⟨σ', .elseFalse htruth (hview₁ ▸ hruns)⟩
  | whileDo hc hb ih =>
    exact hangs_while hc hb hE hw hp
      (fun hm hnot => ih hE (hc.books hE.scope.ledger (hw.skip 3)) hp hm hnot) hm hnot
  | repeatUntil hb hc ih =>
    exact hangs_repeat hb hc hE hw hp (fun hm hnot => ih hE (hw.skip 2) hp hm hnot) hm hnot
  | @forDo s s₁ s₂ s₃ s₄ x down first last body v start bound limit lines₁ lines₂ code hx hf hl ht
      hwidth hb ih =>
    have hw₁ := (hf.books hE.scope.ledger hw).release
    have htemp := ((hl.books hE.scope.ledger hw₁).take ht).2.2.1
    have hlimit := ((hE.scope.ledger.limit hf hl ht hw).skip 4).skip
      (relationLabels (.past down) v)
    rw [plainLines, List.map_append, List.map_append, Piece.map_plain_ofLines,
      Piece.map_plain_ofLines]
    obtain ⟨hhangs, -⟩ | ⟨a, b, m₁, ha, hb', hm₁, hview₁, -, hgoes₁, hget₁⟩ :=
      counter_starts out hx hf hl ht hE hw hm
    · exact hhangs.append_right
    · refine hgoes₁.hangs (Setting.Hangs.append_right ?_)
      refine hangs_count hx hlimit htemp hwidth hb hE hp (fun hm hnot => ih
        (hE.mono fun _ => hlimit.room_of_spare) (.of_sound hlimit.sound) hp hm hnot) hm₁ ?_
      rintro ⟨σ', hruns⟩
      rw [hview₁, hget₁] at hruns
      exact hnot ⟨σ', .forDo (Scope.decls_scalar? hx) ha hb' hruns⟩
  | skip => exact hangs_single .skip hE hw rfl hp hm hnot
  | nop => exact hangs_single .nop hE hw rfl hp hm hnot
  | assign hx hv => exact hangs_single (.assign hx hv) hE hw rfl hp hm hnot
  | setElement hx hi hv hc ho => exact hangs_single (.setElement hx hi hv hc ho) hE hw rfl hp hm hnot
  | fillList hx hl => exact hangs_single (.fillList hx hl) hE hw rfl hp hm hnot
  | fillText hx hu hc hl => exact hangs_single (.fillText hx hu hc hl) hE hw rfl hp hm hnot
  | copyArray hx hy hwd hl hs => exact hangs_single (.copyArray hx hy hwd hl hs) hE hw rfl hp hm hnot
  | step hx => exact hangs_single (.step hx) hE hw rfl hp hm hnot
  | output hv => exact hangs_single (.output hv) hE hw rfl hp hm hnot
  | input hx => exact hangs_single (.input hx) hE hw rfl hp hm hnot

end Stmt.Coded

end NibblePascal
