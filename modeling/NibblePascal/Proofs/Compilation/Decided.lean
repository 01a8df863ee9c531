import NibblePascal.Proofs.Compilation.Computed
import NibblePascal.Proofs.Compilation.Framed
import NibblePascal.Proofs.Machine.Exits
import NibblePascal.Proofs.Simulation.Skipped
import NibblePascal.Proofs.Simulation.ZeroDivisor

/-!
# The code of conditions by itself

A condition may be read and generated wherever one begins in a program.  With its exits resolved to
two labels, the code behind that place jumps to the label of its truth value, whatever the machine
holds when it comes there, and does not come to operands that the value does not depend on.  The
labels may stand anywhere, also where the code begins, as that of a loop with its condition behind
an empty body does.
-/

namespace NibblePascal

open Code

/-! ### The way out of a test -/

/-- A closed test takes no jump to its exits, or first that to the label of its outcome. -/
theorem Cond.Coded.outcome {sc : Scope} {s₀ s₁ : Stock} {c : Cond} {test : List TestLine}
    (h : c.Coded sc none s₀ test s₁) {room : Nat → Prop} (hready : sc.Ready room)
    (hw : Workspace room s₀ []) {image : Image} {ρ : String → Nat} {yes no : String} {s : State}
    (hold : image.Holds ρ s.pc (closeTest yes no test))
    (hnew : ∀ x, x = yes ∨ x = no → x ∉ labelNames (closeTest yes no test)) (hb : s.bank = 0)
    (hm : s.mem.Nibbles) :
    c.truth sc.decls (sc.view s.mem s.out) = none
        ∧ (∀ n, ∃ t, image.Lingers (closeTest yes no test) (fun x => x = yes ∨ x = no) n s t)
      ∨ ∃ b t, c.truth sc.decls (sc.view s.mem s.out) = some b
        ∧ image.Quits ρ (closeTest yes no test) (fun x => x = yes ∨ x = no) (if b then yes else no) s t
        ∧ t.bank = 0 := by
  cases htruth : c.truth sc.decls (sc.view s.mem s.out) with
  | none =>
    let σ := Image.aside ρ yes no (s.pc + codeSize (closeTest yes no test))
    have hσ : ∀ x ∈ labelNames (closeTest yes no test), σ x = ρ x :=
      fun x hx => Image.aside_of_mem hnew hx
    have hstalls : Image.Branches _ σ test yes no room s.mem _ :=
      h.decided ((image.relabel σ).alone s.pc (closeTest yes no test)) σ s.out hready hw hm yes no
    rw [htruth] at hstalls
    have hspins := Image.Spins.of_lasts (hstalls s.pc s.out s.inp (hold.relabel hσ).alone) hb
    refine .inl ⟨rfl, fun n => ?_⟩
    obtain ⟨t, ht⟩ := hspins n
    obtain hlingers | ⟨x, u, hx, -, rfl⟩ := Image.Lingers.of_relabel hold
      (fun x hx => h.closed_jumps hx) hσ (fun x hx => Image.not_within_aside hx) ht
    · exact ⟨t, hlingers⟩
    · exact absurd (hspins.within ht) (Image.not_within_aside hx)
  | some b =>
    obtain ⟨t, hquits, hbank, -⟩ := Image.Quits.of_advances (P := fun _ => True) hold
      (fun x hx => h.closed_jumps hx) hnew (Image.label_of_outcome b yes no) hb
      fun image σ hold => by
        have hbranches := h.decided image σ s.out hready hw hm yes no
        rw [htruth] at hbranches
        obtain ⟨m, -, -, hadvances⟩ := hbranches
        exact ⟨m, trivial, hadvances s.pc s.out s.inp hold⟩
    exact .inr ⟨b, t, rfl, hquits, hbank⟩

/-! ### Conditions in their place -/

/-- What the machine does from `s` in the lines of a condition, generated between `g` and `g'`, up
to the first jump to one of the labels `yes` and `no`. -/
structure Cond.DecidedBy (d : Cond) (g g' : Generator) (yes no : String) (lines : List Line)
    (image : Image) (ρ : String → Nat) (s : State) : Prop where
  /-- That jump is the one to the label of the truth value. -/
  quits : ∀ b : Bool,
    (∃ t, image.Quits ρ lines (fun x => x = yes ∨ x = no) (if b then yes else no) s t ∧ t.bank = 0) ↔
      d.truth g.scope.decls (g.scope.view s.mem s.out) = some b
  /-- It is never taken only if the condition divides by zero. -/
  lingers : (∀ n, ∃ t, image.Lingers lines (fun x => x = yes ∨ x = no) n s t) ↔
    d.DividesByZero g.scope.decls (g.scope.view s.mem s.out)
  /-- Before it, the machine does not come to the end of the lines. -/
  stays : ∀ n t, image.Lingers lines (fun x => x = yes ∨ x = no) n s t → Within s.pc lines t.pc
  /-- No cell changes but those of temporaries. -/
  keeps : ∀ n t, image.Lingers lines (fun x => x = yes ∨ x = no) n s t →
    s.mem.SameBut (g.memory.Borrowed g'.memory) t.mem ∧ g.memory.SameDeclared s.mem t.mem
  /-- It comes to the code of an operand, generated between `g₁` and `g₂`, only if the operands
  before have the outcomes that call for it. -/
  skips : ∀ path c g₁ br g₂, d.Enters none g path c g₁ → c.generate g₁ = .ok br g₂ →
    ∀ n t, image.Lingers lines (fun x => x = yes ∨ x = no) n s t →
      s.pc + codeSize g₁.code.lines ≤ t.pc + codeSize g.code.lines →
      t.pc + codeSize g.code.lines < s.pc + codeSize g₂.code.lines →
      ∀ q ∈ path, q.1.truth g.scope.decls (g.scope.view s.mem s.out) = some q.2

section Place

variable {o : Outline} {s₀ s₁ : Stock} {vs : List Var} {code : List Piece} {d : Cond}
  {test : List TestLine} {yes no : String} {image : Image} {ρ : String → Nat} {s t : State}
  {n : Nat}

/-- A run that comes to the code of an operand has taken the path to it. -/
theorem Cond.Enters.taken {path : List (Cond × Bool)} {c : Cond} {g₁ g₂ : Generator} {br : Branch}
    (h : d.Enters none ((o.restock s₀).generator code) path c g₁) (hc : c.generate g₁ = .ok br g₂)
    (hd : d.Coded o.scope none s₀ test s₁) (ho : o.Tidy) (hs : o.Spends s₀ vs)
    (hold : image.Holds ρ s.pc (closeTest yes no test))
    (hout : ∀ x, x = yes ∨ x = no → ¬ Within s.pc (closeTest yes no test) (ρ x)) (hb : s.bank = 0)
    (hm : s.mem.Nibbles) (hruns : image.Runs (closeTest yes no test) n s t)
    (hlo : s.pc + codeSize g₁.code.lines ≤
      t.pc + codeSize ((o.restock s₀).generator code).code.lines)
    (hhi : t.pc + codeSize ((o.restock s₀).generator code).code.lines <
      s.pc + codeSize g₂.code.lines) :
    ∀ q ∈ path, q.1.truth o.scope.decls (o.scope.view s.mem s.out) = some q.2 := by
  rw [Outline.generator_eq_holding] at h
  obtain ⟨masked, lines₁, lines₂, s', s'', rfl, rfl, hmasks, havoids⟩ := h.avoids .alone hd hc
  simp only [Generator.holding, Outline.generator, Sequence.lines_ofLines, codeSize_append]
    at hlo hhi
  obtain ⟨k, hk⟩ : ∃ k, t.pc = s.pc + k := Nat.exists_eq_add_of_le (by omega)
  exact havoids.taken hmasks (hs.ready ho) (.of_sound hs.workspace.sound) hold hout hb hm hruns hk
    (by omega) (by omega)

theorem Cond.Coded.decidedBy (h : d.Coded o.scope none s₀ test s₁) (ho : o.Tidy)
    (hs : o.Spends s₀ vs) (hne : yes ≠ no) (hold : image.Holds ρ s.pc (closeTest yes no test))
    (hnew : ∀ x, x = yes ∨ x = no → x ∉ labelNames (closeTest yes no test)) (hb : s.bank = 0)
    (hm : s.mem.Nibbles) {g' : Generator} (hg' : g'.memory = s₁.memory) :
    d.DecidedBy ((o.restock s₀).generator code) g' yes no (closeTest yes no test) image ρ s := by
  have houtcome := h.outcome (hs.ready ho) (.of_sound hs.workspace.sound) hold hnew hb hm
  have hlabel := fun b => Image.label_of_outcome b yes no
  -- Up to the first jump to an exit, the labels may as well be behind the lines.
  have hσ : ∀ x ∈ labelNames (closeTest yes no test),
      Image.aside ρ yes no (s.pc + codeSize (closeTest yes no test)) x = ρ x :=
    fun x hx => Image.aside_of_mem hnew hx
  have hold' := hold.relabel hσ
  have hout : ∀ x, x = yes ∨ x = no → ¬ Within s.pc (closeTest yes no test)
      (Image.aside ρ yes no (s.pc + codeSize (closeTest yes no test)) x) :=
    fun x hx => Image.not_within_aside hx
  have hruns := fun n t => Image.Lingers.relabel (n := n) (t := t) hold
    (fun x hx => h.closed_jumps hx) hσ
  constructor
  case quits =>
    intro b
    refine ⟨?_, fun hb => ?_⟩
    · rintro ⟨t, ht, -⟩
      obtain ⟨-, hlingers⟩ | ⟨b', u, htruth, hu, -⟩ := houtcome
      · exact absurd hlingers (ht.not_lingers (hlabel b))
      · have hsame := hu.unique ht (hlabel b') (hlabel b)
        have hb' : b' = b := by cases b <;> cases b' <;> simp_all
        exact hb' ▸ htruth
    · obtain ⟨hnone, -⟩ | ⟨b', u, htruth, hu, hbank⟩ := houtcome
      · cases hnone.symm.trans hb
      · cases htruth.symm.trans hb
        exact ⟨u, hu, hbank⟩
  case lingers =>
    refine Iff.trans ⟨fun hlingers => ?_, fun hnone => ?_⟩ h.truth_eq_none_iff
    · obtain ⟨hnone, -⟩ | ⟨b, u, -, hu, -⟩ := houtcome
      exacts [hnone, absurd hlingers (hu.not_lingers (hlabel b))]
    · obtain ⟨-, hlingers⟩ | ⟨b, u, htruth, -, -⟩ := houtcome
      · exact hlingers
      · cases htruth.symm.trans hnone
  case stays =>
    intro n t ht
    obtain ⟨-, hlingers⟩ | ⟨b, u, -, hu, -⟩ := houtcome
    · obtain ⟨u, hu⟩ := hlingers (n + 1)
      exact hu.runs.inside n n.lt_succ_self t ht.runs.steps
    · exact hu.within (hlabel b) ht
  case keeps =>
    intro n t ht
    have hsame := h.sameBut ho hs hold' hout hb (hruns n t ht)
    refine ⟨hg' ▸ hsame, hs.sameDeclared ho (hsame.mono fun addr haddr => ?_)⟩
    exact haddr.spare (h.upholds (Allocator.Extends.ledger ..) (.refl _))
      (h.books ho.spends_ledger hs).bounds
  case skips =>
    intro path c g₁ br g₂ hc hgen n t ht hlo hhi
    exact hc.taken hgen h ho hs hold' hout hb hm (hruns n t ht) hlo hhi

end Place

variable {files : Files} {o : Options} {name text : String} {p : Program} {g g' : Generator}

/-- Condition code branches on the truth value of the condition.  A condition is read from tokens,
which the grammar says to spell it, generated at a place of a program where one may begin, and
resolved to two labels that its code does not place.  They may stand where the code begins. -/
theorem conditions_decided (htree : sourceTree? files o name text = some p) (hopens : p.Opens g)
    {ctx : Context} {ts rest : List Token} {d : Cond} (hread : ctx.cond ts = (d, rest))
    {br : Branch} (hgen : d.generate g = .ok br g') {yes no : String} (hne : yes ≠ no) :
    ∃ us lines g'', ts = us ++ rest ∧ d.Spelled ctx.arrays .sum us
      ∧ Gen.resolveBoth br yes no g' = .ok () g'' ∧ g''.code.lines = g.code.lines ++ lines
      ∧ (∀ x ∈ jumpTargets lines, x ∈ labelNames lines ∨ x = yes ∨ x = no)
      ∧ ∀ (image : Image) (ρ : String → Nat) (s : State), image.Holds ρ s.pc lines →
        (∀ x, x = yes ∨ x = no → x ∉ labelNames lines) →
        s.bank = 0 → s.mem.Nibbles → d.DecidedBy g g' yes no lines image ρ s := by
  obtain ⟨outline, s₀, code, vs, ho, hs, rfl⟩ := hopens.spends (arraysFit_of_sourceTree htree)
  obtain ⟨test, s₁, hc, rfl, rfl⟩ := Gen.outline_condition hgen
  obtain ⟨us, rfl, hus⟩ := Context.readsCond_cond ctx hread hc.isWhole
  refine ⟨us, closeTest yes no test, _, rfl, hus, Gen.resolveBoth_outline code yes no, ?_,
    fun x hx => hc.closed_jumps hx, fun image ρ s hold hnew hb hm => ?_⟩
  · simp [Outline.generator]
  · change Cond.Coded outline.scope none s₀ d test s₁ at hc
    exact hc.decidedBy ho hs hne hold hnew hb hm rfl

/-- A choice by a condition with all kinds of operands and two spellings of zero. -/
def choiceText : String :=
  "var a, b: nibble;\nbegin\n"
    ++ "  if \x7b odd a or b # $00 \x7d and a / b >= 3 or a > 0 then a := b\nend.\n"

/-- The tokens of the condition and the one behind it. -/
def choiceTokens : List Token :=
  [(.lcurly, "\x7b"), (.kwOdd, "odd"), (.name, "a"), (.kwOr, "or"), (.name, "b"), (.hash, "#"),
    (.number, "$00"), (.rcurly, "\x7d"), (.kwAnd, "and"), (.name, "a"), (.slash, "/"), (.name, "b"),
    (.ge, ">="), (.number, "3"), (.kwOr, "or"), (.name, "a"), (.gt, ">"), (.number, "0"),
    (.kwThen, "then")].map fun t => ⟨t.1, t.2, ⟨"choice", 3⟩⟩

/-- Whether a program begins with a choice by a condition. -/
def Program.startsWithChoice (p : Program) (d : Cond) : Bool :=
  match p.block.first? with
  | some (.ifThen c _ _) => c == d
  | _ => false

theorem conditions_decided_choice : ∃ p g g' d br rest,
    sourceTree? {} {} "choice" choiceText = some p ∧ p.Opens g
      ∧ Context.cond ⟨⟨"choice", 4⟩, []⟩ choiceTokens = (d, rest) ∧ d.generate g = .ok br g'
      ∧ "yes" ≠ "no"
      ∧ ∃ us lines g'', choiceTokens = us ++ rest ∧ d.Spelled [] .sum us
        ∧ Gen.resolveBoth br "yes" "no" g' = .ok () g'' ∧ g''.code.lines = g.code.lines ++ lines
        ∧ (∀ x ∈ jumpTargets lines, x ∈ labelNames lines ∨ x = "yes" ∨ x = "no")
        ∧ ∀ (image : Image) (ρ : String → Nat) (s : State), image.Holds ρ s.pc lines →
          (∀ x, x = "yes" ∨ x = "no" → x ∉ labelNames lines) →
          s.bank = 0 → s.mem.Nibbles → d.DecidedBy g g' "yes" "no" lines image ρ s := by
  obtain ⟨d, rest, hread⟩ :
      ∃ d rest, Context.cond ⟨⟨"choice", 4⟩, []⟩ choiceTokens = (d, rest) := ⟨_, _, rfl⟩
  have haccepted : isAccepted {} {} "choice" choiceText
      (·.startsWithChoice (Context.cond ⟨⟨"choice", 4⟩, []⟩ choiceTokens).1) = true := by
    decide +kernel
  obtain ⟨p, c, h, hchoice⟩ := exists_accepts_of_isAccepted haccepted
  obtain ⟨g, hgen, -⟩ := h.generated
  -- Generation succeeds, so it gets through the condition.
  have hopens : ∃ g g' br, p.Opens g ∧ d.generate g = .ok br g' := by
    obtain ⟨st, g₁, g₂, hfirst, henters, hst⟩ := p.enters_first hgen
    rw [Program.startsWithChoice, hread, hfirst] at hchoice
    cases st with
    | ifThen c gate yes =>
      obtain rfl : c = d := eq_of_beq hchoice
      obtain ⟨_, _, hopen, -⟩ := Gen.of_bind hst
      obtain ⟨_, _, h₁, hopen⟩ := Gen.of_bind hopen
      obtain ⟨_, _, h₂, hopen⟩ := Gen.of_bind hopen
      obtain ⟨_, g₃, h₃, hopen⟩ := Gen.of_bind hopen
      obtain ⟨br, g₄, hc, -⟩ := Gen.of_bind hopen
      exact ⟨g₃, g₄, br, ⟨[], _, g₁, henters, .ifThen h₁ h₂ h₃ (.operand .self)⟩, hc⟩
    | _ => cases hchoice
  obtain ⟨g, g', br, hopens, hc⟩ := hopens
  exact ⟨p, g, g', d, br, rest, h.tree, hopens, hread, hc, by decide,
    conditions_decided h.tree hopens hread hc (by decide)⟩

end NibblePascal
