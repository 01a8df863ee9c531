import NibblePascal.Proofs.Generation.Invariant

/-!
# The statements that generation reaches

`p.Enters limits st g`: while `p` is generated, its part `st` is reached at the generator `g`, and
`limits` are the limits of the counted loops around `st`, the innermost first.  The relation follows
the definition of `generate` and says nothing about what comes after `st`.

* `Stmt.Enters.books`: what a ledger says before a statement it says at every part of it, with the
  limits in use;
* `Block.Enters.begins`: what declarations and statements keep holds before every statement of a
  block;
* `Program.enters_first`: generation that succeeds gets through the first statement.
-/

namespace NibblePascal

/-! ### Parts of statements -/

/-- The part of a statement that is reached at a generator, and the limits around it. -/
inductive Stmt.Enters : Stmt → Generator → List Var → Stmt → Generator → Prop
  | self {st : Stmt} {g : Generator} : Enters st g [] st g
  | seqFirst {first rest st : Stmt} {g g' : Generator} {limits : List Var}
      (h : Enters first g limits st g') : Enters (.seq first rest) g limits st g'
  | seqRest {first rest st : Stmt} {g g₁ g' : Generator} {limits : List Var}
      (hf : first.generate g = .ok () g₁) (h : Enters rest g₁ limits st g') :
      Enters (.seq first rest) g limits st g'
  | block {body st : Stmt} {close : Gate} {g g' : Generator} {limits : List Var}
      (h : Enters body g limits st g') : Enters (.block body close) g limits st g'
  | ifThen {c : Cond} {gate : Gate} {yes st : Stmt} {k : Gen.Choice} {g g₁ g' : Generator}
      {limits : List Var} (ho : Gen.openChoice c gate g = .ok k g₁)
      (h : Enters yes g₁ limits st g') : Enters (.ifThen c gate yes) g limits st g'
  | ifElseYes {c : Cond} {gate : Gate} {yes no st : Stmt} {k : Gen.Choice} {g g₁ g' : Generator}
      {limits : List Var} (ho : Gen.openChoice c gate g = .ok k g₁)
      (h : Enters yes g₁ limits st g') : Enters (.ifElse c gate yes no) g limits st g'
  | ifElseNo {c : Cond} {gate : Gate} {yes no st : Stmt} {k : Gen.Choice}
      {g g₁ g₂ g₃ g' : Generator} {limits : List Var} (ho : Gen.openChoice c gate g = .ok k g₁)
      (hy : yes.generate g₁ = .ok () g₂) (hn : Gen.otherwise k g₂ = .ok () g₃)
      (h : Enters no g₃ limits st g') : Enters (.ifElse c gate yes no) g limits st g'
  | whileDo {c : Cond} {gate : Gate} {body st : Stmt} {k : Gen.Loop} {g g₁ g' : Generator}
      {limits : List Var} (ho : Gen.openWhile c gate g = .ok k g₁)
      (h : Enters body g₁ limits st g') : Enters (.whileDo c gate body) g limits st g'
  | repeatUntil {c : Cond} {body st : Stmt} {k : Gen.Loop} {g g₁ g' : Generator}
      {limits : List Var} (ho : Gen.openRepeat g = .ok k g₁) (h : Enters body g₁ limits st g') :
      Enters (.repeatUntil body c) g limits st g'
  | forDo {x : Token} {down : Bool} {first last : Expr} {gate : Gate} {body st : Stmt}
      {k : Gen.Counter} {g g₁ g' : Generator} {limits : List Var}
      (ho : Gen.openFor x down first last gate g = .ok k g₁) (h : Enters body g₁ limits st g') :
      Enters (.forDo x down first last gate body) g (limits ++ [k.limit]) st g'

/-- A ledger holds at every part of a statement, where the limits around it are in use; it held
when they were taken. -/
theorem Stmt.Enters.books {st st' : Stmt} {g g' : Generator} {limits vs : List Var}
    (h : st.Enters g limits st' g') {o : Outline} {W : Stock → List Var → Prop} (hd : o.Distinct)
    (hW : Ledger o.scope W) {s : Stock} {code : List Piece}
    (hg : g = (o.restock s).generator code) (hw : W s vs) :
    (∃ s' code', g' = (o.restock s').generator code' ∧ W s' (limits ++ vs))
      ∧ ∀ v ∈ limits, ∃ s₁ s₂ w us, W s₁ us ∧ s₁.Takes w v s₂ := by
  induction h generalizing s code vs with
  | self => exact ⟨⟨s, code, hg, hw⟩, nofun⟩
  | seqFirst _ ih => exact ih hg hw
  | @seqRest first _ _ _ _ _ _ hf _ ih =>
    subst hg
    obtain ⟨code₁, s₁, hc, rfl⟩ := first.generates hd hf
    exact ih rfl (hc.books hW hw)
  | block _ ih => exact ih hg hw
  | ifThen ho _ ih | ifElseYes ho _ ih =>
    subst hg
    obtain ⟨-, test, s₁, hc, rfl, rfl⟩ := Gen.outline_openChoice ho
    exact ih rfl (hc.books hW (hW.skip 3 hw))
  | @ifElseNo _ _ yes _ _ _ _ _ _ _ _ _ ho hy hn _ ih =>
    subst hg
    obtain ⟨-, test, s₁, hc, rfl, rfl⟩ := Gen.outline_openChoice ho
    obtain ⟨code₁, s₂, hcy, rfl⟩ := yes.generates hd hy
    rw [List.append_assoc, List.append_assoc] at hn
    obtain rfl := Gen.outline_otherwise hn
    exact ih rfl (hcy.books hW (hc.books hW (hW.skip 3 hw)))
  | whileDo ho _ ih =>
    subst hg
    obtain ⟨-, test, s₁, hc, rfl, rfl⟩ := Gen.outline_openWhile ho
    exact ih rfl (hc.books hW (hW.skip 3 hw))
  | repeatUntil ho _ ih =>
    subst hg
    obtain ⟨rfl, rfl⟩ := Gen.outline_openRepeat ho
    exact ih rfl (hW.skip 2 hw)
  | forDo ho _ ih =>
    subst hg
    obtain ⟨-, v, start, bound, limit, lines₁, lines₂, s₁, s₂, s₃, -, hf, hl, ht, -, rfl, rfl⟩ :=
      Gen.outline_openFor ho
    obtain ⟨⟨s', code', hg', hw'⟩, htaken⟩ :=
      ih rfl (hW.skip _ (hW.skip 4 (hW.limit hf hl ht hw)))
    refine ⟨⟨s', code', hg', by simpa using hw'⟩, fun u hu => ?_⟩
    rw [List.mem_append, List.mem_singleton] at hu
    obtain hu | rfl := hu
    · exact htaken u hu
    · exact ⟨s₂, s₃, _, _, hl.books hW (hW.release (hf.books hW hw)), ht⟩

/-! ### Parts of blocks -/

/-- The part of a statement of a block that is reached at a generator, and the limits around
it. -/
inductive Block.Enters : String → String → Block → Generator → List Var → Stmt → Generator → Prop
  | code {label name : String} {st st' : Stmt} {g g₁ g' : Generator} {limits : List Var}
      (hp : Gen.place label g = .ok () g₁) (h : st.Enters g₁ limits st' g') :
      Enters label name (.code st) g limits st' g'
  | declare {label name : String} {x : Token} {width : Width} {len : Option Nat} {rest : Block}
      {st : Stmt} {g g₁ g' : Generator} {limits : List Var}
      (hd : Gen.declareVariable name x width len g = .ok () g₁)
      (h : Enters label name rest g₁ limits st g') :
      Enters label name (.declare x width len rest) g limits st g'
  | body {label name : String} {p : Token} {body rest : Block} {close : Gate} {st : Stmt}
      {g g₁ g' : Generator} {limits : List Var} (hd : Gen.declareProcedure p g = .ok () g₁)
      (h : Enters (Gen.procedureLabel p.text) p.text body
        { g₁ with scope := g₁.scope.enter } limits st g') :
      Enters label name (.procedure p body close rest) g limits st g'
  | rest {label name : String} {p : Token} {body rest : Block} {close : Gate} {st : Stmt}
      {g g₁ g₂ g₃ g₄ g' : Generator} {limits : List Var}
      (hd : Gen.declareProcedure p g = .ok () g₁)
      (hb : Gen.inScope (body.generate (Gen.procedureLabel p.text) p.text) g₁ = .ok () g₂)
      (hc : Gen.pass close g₂ = .ok () g₃) (he : Gen.endProcedure p.text g₃ = .ok () g₄)
      (h : Enters label name rest g₄ limits st g') :
      Enters label name (.procedure p body close rest) g limits st g'

/-- The part of a statement of a program that is reached at a generator, and the limits around
it. -/
def Program.Enters (p : Program) (limits : List Var) (st : Stmt) (g : Generator) : Prop :=
  ∃ g₁, Gen.emit Code.prologue {} = .ok () g₁
    ∧ p.block.Enters "@main" "main" { g₁ with scope := g₁.scope.enter } limits st g

variable {I : Outline → Prop} {o o' : Outline} {label name : String} {b : Block}

/-- Every part of a block is a part of a statement that begins with the invariant. -/
theorem Block.Enters.begins {g g' : Generator} {limits : List Var} {st : Stmt}
    (h : Block.Enters label name b g limits st g') (hI : Outline.Invariant I)
    (hb : b.arraysFit = true) {code : List Piece} (hg : g = o.generator code) (hs : o.Sound code)
    (ho : I o) :
    ∃ o' code' st', I o' ∧ o'.Distinct ∧ Stmt.Enters st' (o'.generator code') limits st g' := by
  induction h generalizing o code with
  | code hp h =>
    subst hg
    obtain rfl := Gen.outline_place hp
    exact ⟨o, _, _, ho, hs.distinct, h⟩
  | @declare _ _ _ _ len _ _ _ _ _ _ hd _ ih =>
    subst hg
    obtain ⟨hlen, hrest⟩ := Bool.and_eq_true_iff.1 hb
    cases len with
    | none =>
      obtain ⟨v, memory, sc, hv, hsc, rfl⟩ := Gen.of_declareScalar hd
      exact ih hrest rfl (hs.declare hsc) (hI.scalar ho hv hsc)
    | some len =>
      obtain ⟨a, memory, sc, ha, hsc, rfl⟩ := Gen.of_declareArray hd
      exact ih hrest rfl (hs.declare hsc) (hI.array ho ha (by simpa using hlen) hsc)
  | @body _ _ p _ _ _ _ _ _ _ _ hd _ ih =>
    subst hg
    obtain ⟨selector, memory, sc, hn, hsc, hv, rfl⟩ := Gen.of_declareProcedure hs hd
    exact ih (Bool.and_eq_true_iff.1 hb).1 rfl
      (hs.openBody memory (q := ⟨p.text, selector, p.pos⟩) hn hsc) (hI.openBody ho hn hsc hv)
  | @rest _ _ p _ _ _ _ _ _ _ _ _ _ _ hd hbody hc he _ ih =>
    subst hg
    obtain ⟨hb₁, hb₂⟩ := Bool.and_eq_true_iff.1 hb
    obtain ⟨selector, memory, sc, hn, hsc, hv, rfl⟩ := Gen.of_declareProcedure hs hd
    obtain ⟨_, _, hbody', rfl⟩ := Gen.of_inScope hbody
    have hopen := hs.openBody memory (q := ⟨p.text, selector, p.pos⟩) hn hsc
    obtain ⟨code₁, o₁, hcode₁, rfl⟩ := Block.coded_of_generate hopen hbody'
    have hq : p.text ∈ o₁.headings.map (·.name) :=
      List.mem_map_of_mem (f := (·.name)) (hcode₁.headings_prefix.subset
        (by simp [Outline.openBody] : (⟨p.text, selector, p.pos⟩ : Heading) ∈ _))
    obtain ⟨rfl, rfl⟩ := Gen.of_pass hc
    have hsound := hcode₁.sound hopen
    obtain rfl := Gen.of_endProcedure (o := o₁.leave) hsound.distinct hq he
    exact ih hb₂ rfl (hsound.closeBody hq) (hI.leave (hcode₁.keeps hI hb₁
      (hI.openBody ho hn hsc hv)))

/-! ### The first statement -/

/-- The statement that a statement begins with. -/
def Stmt.first : Stmt → Stmt
  | .seq first _ => first.first
  | .block body _ => body.first
  | st => st

/-- The statement that the code of a block itself begins with. -/
def Block.first? : Block → Option Stmt
  | .fault _ => none
  | .code st => some st.first
  | .declare _ _ _ rest | .procedure _ _ _ rest => rest.first?

/-- Generation that succeeds gets through the first statement. -/
theorem Stmt.enters_first (st : Stmt) {g g' : Generator} (h : st.generate g = .ok () g') :
    st.Enters g [] st.first g ∧ ∃ g₁, st.first.generate g = .ok () g₁ := by
  induction st generalizing g' with
  | seq first rest ih _ =>
    obtain ⟨_, g₁, hfirst, -⟩ := Gen.of_bind h
    exact (ih hfirst).imp_left .seqFirst
  | block body close ih =>
    obtain ⟨_, g₁, hbody, -⟩ := Gen.of_bind h
    exact (ih hbody).imp_left .block
  | _ => exact ⟨.self, g', h⟩

theorem Block.enters_first (b : Block) {g g' : Generator}
    (h : b.generate label name g = .ok () g') :
    ∃ st g₁ g₂, b.first? = some st ∧ Block.Enters label name b g [] st g₁
      ∧ st.generate g₁ = .ok () g₂ := by
  induction b generalizing g with
  | fault why => cases h
  | code st =>
    obtain ⟨_, g₁, hplace, hst⟩ := Gen.of_bind h
    obtain ⟨henters, g₂, hfirst⟩ := st.enters_first hst
    exact ⟨st.first, g₁, g₂, rfl, .code hplace henters, hfirst⟩
  | declare x width len rest ih =>
    obtain ⟨_, _, hd, hrest⟩ := Gen.of_bind h
    obtain ⟨st, g₁, g₂, hst, henters, hfirst⟩ := ih hrest
    exact ⟨st, g₁, g₂, hst, .declare hd henters, hfirst⟩
  | procedure p body close rest _ ih =>
    obtain ⟨_, _, hd, h⟩ := Gen.of_bind h
    obtain ⟨_, _, hbody, h⟩ := Gen.of_bind h
    obtain ⟨_, _, hclose, h⟩ := Gen.of_bind h
    obtain ⟨_, _, hend, hrest⟩ := Gen.of_bind h
    obtain ⟨st, g₁, g₂, hst, henters, hfirst⟩ := ih hrest
    exact ⟨st, g₁, g₂, hst, .rest hd hbody hclose hend henters, hfirst⟩

theorem Program.enters_first (p : Program) {g : Generator} (h : p.generate {} = .ok () g) :
    ∃ st g₁ g₂, p.block.first? = some st ∧ p.Enters [] st g₁ ∧ st.generate g₁ = .ok () g₂ := by
  obtain ⟨_, g₀, hemit, h⟩ := Gen.of_bind h
  obtain ⟨_, _, hscope, -⟩ := Gen.of_bind h
  obtain ⟨_, _, hblock, -⟩ := Gen.of_inScope hscope
  obtain ⟨st, g₁, g₂, hst, henters, hfirst⟩ := p.block.enters_first hblock
  exact ⟨st, g₁, g₂, hst, ⟨g₀, hemit, henters⟩, hfirst⟩

end NibblePascal
