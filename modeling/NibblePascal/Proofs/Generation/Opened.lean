import NibblePascal.Proofs.Generation.Entered
import NibblePascal.Proofs.Simulation.Layout

/-!
# Where expressions and conditions begin

`p.Opens g`: while `p` is generated, an expression or a condition may begin at the generator `g`.
The relations follow the definition of `generate`, into operands of any depth, and say nothing about
what comes after that place.

* `Cond.Enters`: the operands of a condition, each with the outcomes of other operands without which
  it is not evaluated;
* `Expr.Opens.books` and so on: what a ledger says before a tree it says where a part of it begins,
  with the results of earlier operands in use;
* `Program.Opens.spends`: what is known of the memory at each such place.
-/

namespace NibblePascal

/-! ### Parts of expressions -/

/-- An expression begins at the second generator while one is generated from the first. -/
inductive Expr.Opens : Expr → Generator → Generator → Prop
  | self {e : Expr} {g : Generator} : Opens e g g
  | index {x : Token} {index : Expr} {close : Gate} {arr : ArrayVar} {g g₁ g₂ g' : Generator}
      (hl : Gen.locate x.pos g = .ok () g₁) (hx : Gen.array x g₁ = .ok arr g₂)
      (h : Opens index g₂ g') : Opens (.element x index close) g g'
  | paren {e : Expr} {close : Gate} {g g' : Generator} (h : Opens e g g') :
      Opens (.paren e close) g g'
  | negate {e : Expr} {g g' : Generator} (h : Opens e g g') : Opens (.negate e) g g'
  | left {op : BinaryOp} {lhs rhs : Expr} {g g' : Generator} (h : Opens lhs g g') :
      Opens (.binary op lhs rhs) g g'
  | right {op : BinaryOp} {lhs rhs : Expr} {v : Var} {g g₁ g' : Generator}
      (hl : lhs.generate g = .ok v g₁) (h : Opens rhs g₁ g') : Opens (.binary op lhs rhs) g g'

/-- A ledger holds where a part of an expression begins, with the results that are kept there in
use. -/
theorem Expr.Opens.books {e : Expr} {g g' : Generator} (h : e.Opens g g')
    {W : Stock → List Var → Prop} {vs : List Var} (hW : Ledger g.scope W) (hw : W g.stock vs) :
    ∃ lines s us, g' = g.grow lines s ∧ W s (us ++ vs) := by
  induction h generalizing vs with
  | self => exact ⟨[], _, [], rfl, hw⟩
  | index hl hx _ ih =>
    obtain rfl := Gen.of_locate hl
    obtain ⟨-, rfl⟩ := Gen.of_array hx
    obtain ⟨lines, s, us, rfl, hs⟩ := ih hW (hW.locate _ hw)
    exact ⟨_, s, us, Generator.grow_grow .., hs⟩
  | paren _ ih | negate _ ih | left _ ih => exact ih hW hw
  | right hl _ ih =>
    obtain ⟨lines, s₁, hc, rfl⟩ := Expr.coded_of_generate hl
    obtain ⟨lines', s, us, rfl, hs⟩ := ih hW (hc.books hW hw)
    exact ⟨_, s, us ++ [_], Generator.grow_grow .., by simpa using hs⟩

/-! ### Operands of conditions -/

/-- The operand `d` of a condition begins at the second generator while the condition is generated
from the first.  It is evaluated only if every condition of the path has the outcome that is given
with it. -/
inductive Cond.Enters :
    Option Alternatives → Cond → Generator → List (Cond × Bool) → Cond → Generator → Prop
  | self {c : Cond} {g : Generator} : Enters none c g [] c g
  | group {c d : Cond} {close : Gate} {path : List (Cond × Bool)} {g g' : Generator}
      (h : Enters none c g path d g') : Enters none (.group c close) g path d g'
  | andLeft {lhs rhs d : Cond} {path : List (Cond × Bool)} {g g' : Generator}
      (h : Enters none lhs g path d g') : Enters none (.and lhs rhs) g path d g'
  | andRight {lhs rhs d : Cond} {path : List (Cond × Bool)} {br : Branch} {yes no next : String}
      {g g₁ g₂ g₃ g₄ g₅ g' : Generator} (hl : lhs.generate g = .ok br g₁)
      (hyes : Gen.newLabel g₁ = .ok yes g₂) (hno : Gen.newLabel g₂ = .ok no g₃)
      (hnext : Gen.newLabel g₃ = .ok next g₄) (hplace : Gen.place next g₄ = .ok () g₅)
      (h : Enters none rhs g₅ path d g') : Enters none (.and lhs rhs) g ((lhs, true) :: path) d g'
  | orLeft {lhs rhs d : Cond} {path : List (Cond × Bool)} {g g' : Generator}
      (h : Enters none lhs g path d g') : Enters none (.or lhs rhs) g path d g'
  | orRight {lhs rhs d : Cond} {path : List (Cond × Bool)} {br : Branch} {yes no : String}
      {g g₁ g₂ g₃ g' : Generator} (hl : lhs.generate g = .ok br g₁)
      (hyes : Gen.newLabel g₁ = .ok yes g₂) (hno : Gen.newLabel g₂ = .ok no g₃)
      (h : Enters (some ⟨br, yes, no⟩) rhs g₃ path d g') :
      Enters none (.or lhs rhs) g ((lhs, false) :: path) d g'
  | nextLeft {alts : Alternatives} {lhs rhs d : Cond} {path : List (Cond × Bool)} {next : String}
      {g g₁ g₂ g' : Generator} (hnext : Gen.newLabel g = .ok next g₁)
      (hplace : Gen.place next g₁ = .ok () g₂) (h : Enters none lhs g₂ path d g') :
      Enters (some alts) (.or lhs rhs) g path d g'
  | nextRight {alts : Alternatives} {lhs rhs d : Cond} {path : List (Cond × Bool)} {br : Branch}
      {g g₁ g' : Generator} (hl : Gen.alternative alts lhs.generate g = .ok br g₁)
      (h : Enters (some { alts with last := br }) rhs g₁ path d g') :
      Enters (some alts) (.or lhs rhs) g ((lhs, false) :: path) d g'
  | last {alts : Alternatives} {c d : Cond} {path : List (Cond × Bool)} {next : String}
      {g g₁ g₂ g' : Generator} (hc : ∀ lhs rhs, c ≠ .or lhs rhs)
      (hnext : Gen.newLabel g = .ok next g₁) (hplace : Gen.place next g₁ = .ok () g₂)
      (h : Enters none c g₂ path d g') : Enters (some alts) c g path d g'

/-- Where a condition begins: behind some lines, or behind the chain that it continues. -/
inductive Cond.Begins (g : Generator) (lines : List Line) (s : Stock) :
    Option Alternatives → Option Chain → Generator → Prop
  | alone : Begins g lines s none none (g.holding lines s)
  | chained (chain : Chain) :
      Begins g lines s (some ⟨.ofTest lines.length chain.test, chain.yes, chain.no⟩) (some chain)
        (g.holding (lines ++ Code.closeTest "" "" chain.test) s)

section Operands

variable {g g' g₀ g₁ : Generator} {lines : List Line} {s : Stock} {alts : Option Alternatives}
  {chain : Option Chain} {c d : Cond} {path : List (Cond × Bool)} {br : Branch}

/-- The place of the second operand of a conjunction. -/
theorem Cond.Begins.second {lhs : Cond} {yes no next : String} {g₂ g₃ g₄ g₅ : Generator}
    (h : Cond.Begins g lines s none chain g₀) (hl : lhs.generate g₀ = .ok br g₁)
    (hyes : Gen.newLabel g₁ = .ok yes g₂) (hno : Gen.newLabel g₂ = .ok no g₃)
    (hnext : Gen.newLabel g₃ = .ok next g₄) (hplace : Gen.place next g₄ = .ok () g₅) :
    ∃ test s₁, Cond.Coded g.scope none s lhs test s₁ ∧ Cond.Begins g
      (lines ++ (Code.closeTest "" "" test ++ [.label (Code.labelName (s₁.labels + 2))]))
      (s₁.skip 3) none none g₅ := by
  cases h
  obtain ⟨test, s₁, hc, -, rfl⟩ := Cond.coded_of_generate hl
  obtain ⟨rfl, rfl⟩ := Gen.of_newLabel hyes
  obtain ⟨rfl, rfl⟩ := Gen.of_newLabel hno
  obtain ⟨rfl, rfl⟩ := Gen.of_newLabel hnext
  obtain rfl := Gen.of_place hplace
  refine ⟨test, s₁, hc, ?_⟩
  simpa using Cond.Begins.alone (g := g) (s := s₁.skip 3)

/-- The place of the second alternative, which begins a chain. -/
theorem Cond.Begins.other {lhs : Cond} {yes no : String} {g₂ g₃ : Generator}
    (h : Cond.Begins g lines s none chain g₀) (hl : lhs.generate g₀ = .ok br g₁)
    (hyes : Gen.newLabel g₁ = .ok yes g₂) (hno : Gen.newLabel g₂ = .ok no g₃) :
    ∃ test s₁, Cond.Coded g.scope none s lhs test s₁ ∧ Cond.Begins g lines (s₁.skip 2)
      (some ⟨br, yes, no⟩)
      (some ⟨test, Code.labelName s₁.labels, Code.labelName (s₁.labels + 1)⟩) g₃ := by
  cases h
  obtain ⟨test, s₁, hc, rfl, rfl⟩ := Cond.coded_of_generate hl
  obtain ⟨rfl, rfl⟩ := Gen.of_newLabel hyes
  obtain ⟨rfl, rfl⟩ := Gen.of_newLabel hno
  refine ⟨test, s₁, hc, ?_⟩
  simpa using Cond.Begins.chained (g := g) (s := s₁.skip 2)
    ⟨test, Code.labelName s₁.labels, Code.labelName (s₁.labels + 1)⟩

variable {alt : Alternatives}

/-- The place of the next alternative of a chain. -/
theorem Cond.Begins.next {next : String} {g₂ : Generator}
    (h : Cond.Begins g lines s (some alt) chain g₀) (hnext : Gen.newLabel g₀ = .ok next g₁)
    (hplace : Gen.place next g₁ = .ok () g₂) :
    ∃ ch, chain = some ch ∧ Cond.Begins g (lines ++ (Code.closeTest "" "" ch.test
      ++ [.label (Code.labelName s.labels)])) (s.skip 1) none none g₂ := by
  cases h with
  | chained ch =>
    obtain ⟨rfl, rfl⟩ := Gen.of_newLabel hnext
    obtain rfl := Gen.of_place hplace
    refine ⟨ch, rfl, ?_⟩
    simpa using Cond.Begins.alone (g := g)

/-- The place behind the next alternative of a chain. -/
theorem Cond.Begins.further {lhs : Cond} (h : Cond.Begins g lines s (some alt) chain g₀)
    (hl : Gen.alternative alt lhs.generate g₀ = .ok br g₁) :
    ∃ ch test s₁, chain = some ch ∧ Cond.Coded g.scope none (s.skip 1) lhs test s₁
      ∧ Cond.Begins g lines s₁ (some { alt with last := br })
        (some ⟨Code.continued ch.yes (Code.labelName s.labels) (Code.labelName s.labels) ch.test
          ++ test, ch.yes, ch.no⟩) g₁ := by
  cases h with
  | chained ch =>
    obtain ⟨test, s₁, hc, rfl, rfl⟩ :=
      Gen.of_alternative (Cond.generates_and_continues (g := g) lhs).1 hl
    exact ⟨ch, test, s₁, rfl, hc, .chained ⟨_, ch.yes, ch.no⟩⟩

/-- A ledger holds where an operand of a condition begins. -/
theorem Cond.Enters.books (h : c.Enters alts g₀ path d g')
    (hb : Cond.Begins g lines s alts chain g₀) {W : Stock → List Var → Prop} {vs : List Var}
    (hW : Ledger g.scope W) (hw : W s vs) :
    ∃ lines' s', g' = g.holding (lines ++ lines') s' ∧ W s' vs := by
  induction h generalizing lines s chain with
  | self =>
    cases hb
    exact ⟨[], s, by rw [List.append_nil], hw⟩
  | group _ ih | andLeft _ ih | orLeft _ ih =>
    cases hb
    exact ih .alone hw
  | andRight hl hyes hno hnext hplace _ ih =>
    obtain ⟨test, s₁, hc, hb'⟩ := hb.second hl hyes hno hnext hplace
    obtain ⟨lines', s', rfl, hw'⟩ := ih hb' (hW.skip 3 (hc.books hW hw))
    exact ⟨_, s', by rw [List.append_assoc], hw'⟩
  | orRight hl hyes hno _ ih =>
    obtain ⟨test, s₁, hc, hb'⟩ := hb.other hl hyes hno
    exact ih hb' (hW.skip 2 (hc.books hW hw))
  | nextLeft hnext hplace _ ih | last _ hnext hplace _ ih =>
    obtain ⟨ch, -, hb'⟩ := hb.next hnext hplace
    obtain ⟨lines', s', rfl, hw'⟩ := ih hb' (hW.skip 1 hw)
    exact ⟨_, s', by rw [List.append_assoc], hw'⟩
  | nextRight hl _ ih =>
    obtain ⟨ch, test, s₁, -, hc, hb'⟩ := hb.further hl
    exact ih hb' (hc.books hW (hW.skip 1 hw))

end Operands

/-! ### Parts of conditions and statements -/

/-- An operand or an expression begins at the second generator while a condition is generated from
the first. -/
inductive Cond.Opens (c : Cond) (g : Generator) : Generator → Prop
  | operand {path : List (Cond × Bool)} {d : Cond} {g' : Generator}
      (h : c.Enters none g path d g') : Opens c g g'
  | compareLeft {path : List (Cond × Bool)} {lhs rhs : Expr} {rel : Relation} {g₁ g' : Generator}
      (h : c.Enters none g path (.compare lhs rel rhs) g₁) (he : lhs.Opens g₁ g') : Opens c g g'
  | compareRight {path : List (Cond × Bool)} {lhs rhs : Expr} {rel : Relation} {v : Var}
      {g₁ g₂ g' : Generator} (h : c.Enters none g path (.compare lhs rel rhs) g₁)
      (hl : lhs.generate g₁ = .ok v g₂) (he : rhs.Opens g₂ g') : Opens c g g'
  | nonzero {path : List (Cond × Bool)} {e : Expr} {g₁ g' : Generator}
      (h : c.Enters none g path (.nonzero e) g₁) (he : e.Opens g₁ g') : Opens c g g'
  | odd {path : List (Cond × Bool)} {e : Expr} {g₁ g' : Generator}
      (h : c.Enters none g path (.odd e) g₁) (he : e.Opens g₁ g') : Opens c g g'

/-- An expression or a condition begins at the second generator while a statement is generated from
the first, apart from the statements in it. -/
inductive Stmt.Opens : Stmt → Generator → Generator → Prop
  | self {st : Stmt} {g : Generator} : Opens st g g
  | assign {x : Token} {value : Expr} {dst : Var} {g g₁ g' : Generator}
      (hx : Gen.scalar x.text x g = .ok dst g₁) (h : value.Opens g₁ g') :
      Opens (.assign x value) g g'
  | index {x : Token} {index value : Expr} {arr : ArrayVar} {g g₁ g' : Generator}
      (hx : Gen.array x g = .ok arr g₁) (h : index.Opens g₁ g') :
      Opens (.setElement x index value) g g'
  | element {x : Token} {index value : Expr} {arr : ArrayVar} {i : Var} {g g₁ g₂ g' : Generator}
      (hx : Gen.array x g = .ok arr g₁) (hi : index.generate g₁ = .ok i g₂)
      (h : value.Opens g₂ g') : Opens (.setElement x index value) g g'
  | ifThen {c : Cond} {gate : Gate} {yes : Stmt} {l₁ l₂ l₃ : String} {g g₁ g₂ g₃ g' : Generator}
      (h₁ : Gen.newLabel g = .ok l₁ g₁) (h₂ : Gen.newLabel g₁ = .ok l₂ g₂)
      (h₃ : Gen.newLabel g₂ = .ok l₃ g₃) (h : c.Opens g₃ g') : Opens (.ifThen c gate yes) g g'
  | ifElse {c : Cond} {gate : Gate} {yes no : Stmt} {l₁ l₂ l₃ : String}
      {g g₁ g₂ g₃ g' : Generator} (h₁ : Gen.newLabel g = .ok l₁ g₁)
      (h₂ : Gen.newLabel g₁ = .ok l₂ g₂) (h₃ : Gen.newLabel g₂ = .ok l₃ g₃)
      (h : c.Opens g₃ g') : Opens (.ifElse c gate yes no) g g'
  | whileDo {c : Cond} {gate : Gate} {body : Stmt} {l₁ l₂ l₃ : String}
      {g g₁ g₂ g₃ g₄ g' : Generator} (h₁ : Gen.newLabel g = .ok l₁ g₁)
      (h₂ : Gen.newLabel g₁ = .ok l₂ g₂) (h₃ : Gen.newLabel g₂ = .ok l₃ g₃)
      (hp : Gen.place l₁ g₃ = .ok () g₄) (h : c.Opens g₄ g') : Opens (.whileDo c gate body) g g'
  | repeatUntil {body : Stmt} {c : Cond} {k : Gen.Loop} {g g₁ g₂ g' : Generator}
      (ho : Gen.openRepeat g = .ok k g₁) (hb : body.generate g₁ = .ok () g₂) (h : c.Opens g₂ g') :
      Opens (.repeatUntil body c) g g'
  | first {x : Token} {down : Bool} {first last : Expr} {gate : Gate} {body : Stmt} {v : Var}
      {g g₁ g' : Generator} (hx : Gen.scalar "for" x g = .ok v g₁) (h : first.Opens g₁ g') :
      Opens (.forDo x down first last gate body) g g'
  | last {x : Token} {down : Bool} {first last : Expr} {gate : Gate} {body : Stmt} {v start : Var}
      {g g₁ g₂ g₃ g₄ g' : Generator} (hx : Gen.scalar "for" x g = .ok v g₁)
      (hf : first.generate g₁ = .ok start g₂) (hs : Gen.store start v g₂ = .ok () g₃)
      (hr : Gen.free start g₃ = .ok () g₄) (h : last.Opens g₄ g') :
      Opens (.forDo x down first last gate body) g g'
  | output {port : Nat} {value : Expr} {g g' : Generator} (h : value.Opens g g') :
      Opens (.output port value) g g'

/-- An expression or a condition may begin at the generator while the program is generated. -/
def Program.Opens (p : Program) (g : Generator) : Prop :=
  ∃ limits st g₀, p.Enters limits st g₀ ∧ st.Opens g₀ g

section Statements

variable {o : Outline} {W : Stock → List Var → Prop} {s : Stock} {code : List Piece}
  {vs : List Var} {g' : Generator}

/-- The place is behind some code, with a ledger that holds of the variables `vs` and others. -/
def Outline.Books (o : Outline) (W : Stock → List Var → Prop) (vs : List Var) (g : Generator) :
    Prop :=
  ∃ s code us, g = (o.restock s).generator code ∧ W s (us ++ vs)

theorem Outline.Books.tail {v : Var} (h : o.Books W (v :: vs) g') : o.Books W vs g' := by
  obtain ⟨s, code, us, rfl, hw⟩ := h
  exact ⟨s, code, us ++ [v], rfl, by simpa using hw⟩

theorem Expr.Opens.outline_books {e : Expr} (h : e.Opens ((o.restock s).generator code) g')
    (hW : Ledger o.scope W) (hw : W s vs) : o.Books W vs g' := by
  obtain ⟨lines, s', us, rfl, hs⟩ := h.books hW hw
  exact ⟨s', _, us, Outline.grow_generator .., hs⟩

theorem Cond.Opens.outline_books {c : Cond} (h : c.Opens ((o.restock s).generator code) g')
    (hW : Ledger o.scope W) (hw : W s vs) : o.Books W vs g' := by
  have hoperand : ∀ {path d g₁}, c.Enters none ((o.restock s).generator code) path d g₁ →
      ∃ s' code', g₁ = (o.restock s').generator code' ∧ W s' vs := by
    intro path d g₁ h
    rw [Outline.generator_eq_holding] at h
    obtain ⟨lines, s', rfl, hw'⟩ := h.books .alone hW hw
    exact ⟨s', _, Outline.holding_append .., hw'⟩
  cases h with
  | operand h =>
    obtain ⟨s', code', rfl, hw'⟩ := hoperand h
    exact ⟨s', code', [], rfl, hw'⟩
  | compareLeft h he | nonzero h he | odd h he =>
    obtain ⟨s', code', rfl, hw'⟩ := hoperand h
    exact he.outline_books hW hw'
  | compareRight h hl he =>
    obtain ⟨s', code', rfl, hw'⟩ := hoperand h
    obtain ⟨lines, s₁, hc, rfl⟩ := Expr.coded_of_generate hl
    rw [Outline.grow_generator, Outline.restock_restock] at he
    exact (he.outline_books hW (hc.books hW hw')).tail

theorem Stmt.Opens.outline_books {st : Stmt} (h : st.Opens ((o.restock s).generator code) g')
    (hd : o.Distinct) (hW : Ledger o.scope W) (hw : W s vs) : o.Books W vs g' := by
  cases h with
  | self => exact ⟨s, code, [], rfl, hw⟩
  | assign hx h | first hx h =>
    obtain ⟨-, rfl⟩ := Gen.of_scalar hx
    exact h.outline_books hW hw
  | index hx h =>
    obtain ⟨-, rfl⟩ := Gen.of_array hx
    exact h.outline_books hW hw
  | element hx hi h =>
    obtain ⟨-, rfl⟩ := Gen.of_array hx
    obtain ⟨lines, s₁, hc, rfl⟩ := Expr.coded_of_generate hi
    rw [Outline.grow_generator, Outline.restock_restock] at h
    exact (h.outline_books hW (hc.books hW hw)).tail
  | ifThen h₁ h₂ h₃ h | ifElse h₁ h₂ h₃ h =>
    obtain ⟨-, rfl⟩ := Gen.outline_newLabel h₁
    obtain ⟨-, rfl⟩ := Gen.outline_newLabel h₂
    obtain ⟨-, rfl⟩ := Gen.outline_newLabel h₃
    exact h.outline_books hW (hW.skip 1 (hW.skip 1 (hW.skip 1 hw)))
  | whileDo h₁ h₂ h₃ hp h =>
    obtain ⟨-, rfl⟩ := Gen.outline_newLabel h₁
    obtain ⟨-, rfl⟩ := Gen.outline_newLabel h₂
    obtain ⟨-, rfl⟩ := Gen.outline_newLabel h₃
    obtain rfl := Gen.outline_place hp
    exact h.outline_books hW (hW.skip 1 (hW.skip 1 (hW.skip 1 hw)))
  | @repeatUntil body _ _ _ _ _ _ ho hb h =>
    obtain ⟨-, rfl⟩ := Gen.outline_openRepeat ho
    obtain ⟨code₁, s₁, hc, rfl⟩ := body.generates hd hb
    exact h.outline_books hW (hc.books hW (hW.skip 2 hw))
  | last hx hf hs hr h =>
    obtain ⟨-, rfl⟩ := Gen.of_scalar hx
    obtain ⟨lines, s₁, hc, rfl⟩ := Expr.coded_of_generate hf
    obtain rfl := Gen.of_store hs
    obtain rfl := Gen.of_free hr
    simp only [Outline.grow_generator] at h
    exact h.outline_books hW (hW.release (hc.books hW hw))
  | output h => exact h.outline_books hW hw

end Statements

/-! ### The memory where a tree begins -/

/-- The stock after some temporaries of a tidy outline were taken, with those among `vs` in use. -/
structure Outline.Spends (o : Outline) (s : Stock) (vs : List Var) : Prop where
  workspace : Workspace o.stock.memory.Spare s vs
  lends : s.memory.Lends vs
  bounds : s.memory.InBounds
  grows : o.stock.memory.Grows s.memory
  keeps : o.stock.memory.Keeps s.memory

namespace Outline

variable {o : Outline} {s : Stock} {vs : List Var}

theorem Tidy.spends (h : o.Tidy) : o.Spends o.stock [] :=
  ⟨.of_sound h.laid.sound, h.lends.memory, h.housed.bounds, .refl _, .refl _⟩

theorem Tidy.spends_ledger (h : o.Tidy) : Ledger o.scope o.Spends where
  skip := fun n hs => ⟨hs.workspace.skip n, hs.lends, hs.bounds, hs.grows, hs.keeps⟩
  locate := fun pos hs => ⟨hs.workspace.locate pos, hs.lends.locate pos, hs.bounds.locate pos,
    hs.grows.locate pos, ⟨hs.keeps.1, hs.keeps.2, hs.keeps.3, hs.keeps.4⟩⟩
  perm := fun hp hs => ⟨hs.workspace.perm hp, hs.lends.rearrange hp, hs.bounds, hs.grows, hs.keeps⟩
  take := fun ht hs => ⟨h.ready.ledger.take ht hs.workspace, h.lends.ledger.take ht hs.lends,
    ht.upholds (Allocator.InBounds.ledger o.scope) hs.bounds,
    ht.upholds (Allocator.Grows.ledger o.scope _) hs.grows,
    ht.upholds (Allocator.Keeps.ledger o.scope _) hs.keeps⟩
  release := fun hs => ⟨hs.workspace.release, hs.lends.release, hs.bounds.release _,
    hs.grows.release _, hs.keeps.release _⟩
  declared := fun hx hs => ⟨h.ready.ledger.declared hx hs.workspace,
    h.lends.ledger.declared hx hs.lends, hs.bounds, hs.grows, hs.keeps⟩

end Outline

/-- Where an expression or a condition may begin, the code so far is followed by that of a tidy
outline some of whose temporaries are in use. -/
theorem Program.Opens.spends {p : Program} {g : Generator} (h : p.Opens g)
    (hfits : p.block.arraysFit = true) :
    ∃ (o : Outline) (s : Stock) (code : List Piece) (vs : List Var),
      o.Tidy ∧ o.Spends s vs ∧ g = (o.restock s).generator code := by
  obtain ⟨limits, st, g₀, ⟨g₁, hemit, henters⟩, hopens⟩ := h
  obtain rfl := Gen.of_emit hemit
  obtain ⟨o, code, st', ho, hd, henters⟩ :=
    henters.begins Outline.tidy_invariant hfits rfl Program.start_sound Outline.tidy_start
  obtain ⟨⟨s₁, code₁, rfl, hs₁⟩, -⟩ :=
    henters.books hd ho.spends_ledger (s := o.stock) rfl ho.spends
  obtain ⟨s, code', us, rfl, hs⟩ := hopens.outline_books hd ho.spends_ledger hs₁
  exact ⟨o, s, code', _, ho, hs, rfl⟩

end NibblePascal
