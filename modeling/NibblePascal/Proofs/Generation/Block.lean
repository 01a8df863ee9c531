import NibblePascal.Proofs.Generation.Statement
import NibblePascal.Proofs.Storage.Symbols

/-!
# Generated blocks

The code of a block follows its declarations: variables bring in no code, and the body of a
procedure stands before the statement of its block.  `Outline.Sound` keeps what the generator
needs to know about procedures: their names are different, and only known ones are visible,
called or ended.  The outcome is `Block.coded_of_generate`.
-/

namespace NibblePascal

/-! ### What pieces mention -/

/-- Calls in a statement are calls of visible procedures. -/
theorem Stmt.Coded.visible_of_call {sc : Scope} {s s' : Stock} {st : Stmt} {code : List Piece}
    (h : Stmt.Coded sc s st code s') {p ret : String} (hp : .call p ret ∈ code) :
    sc.hasProcedure p = true := by
  induction h with
  | call hv => simp_all [Piece.mark]
  | _ => simp_all [Piece.ofLines, Piece.ifThen, Piece.ifElse, Piece.whileDo, Piece.repeatUntil,
      Piece.forLoop, Piece.test, Piece.mark, Piece.goto] <;> grind

/-- No procedure ends in a statement. -/
theorem Stmt.Coded.not_finish {sc : Scope} {s s' : Stock} {st : Stmt} {code : List Piece}
    (h : Stmt.Coded sc s st code s') (p : String) : .finish p ∉ code := by
  induction h with
  | _ => simp_all [Piece.ofLines, Piece.ifThen, Piece.ifElse, Piece.whileDo, Piece.repeatUntil,
      Piece.forLoop, Piece.test, Piece.mark, Piece.goto]

/-! ### Scopes of procedures -/

namespace Scope

variable {sc sc' : Scope} {name other : String}

theorem hasProcedure_enter : sc.enter.hasProcedure name = sc.hasProcedure name := rfl

theorem hasProcedure_of_leave (h : sc.leave.hasProcedure name = true) :
    sc.hasProcedure name = true := by
  rw [hasProcedure, List.contains_iff_mem] at h ⊢
  exact sc.procedures_leave_sublist.subset h

theorem hasProcedure_declare {symbol : Symbol} (h : sc.declare? symbol = some sc') :
    sc'.hasProcedure name = sc.hasProcedure name := by
  obtain ⟨-, rfl⟩ := declare?_eq_some_iff.1 h
  rfl

theorem hasProcedure_declareProcedure (h : sc.declareProcedure? other = some sc') :
    sc'.hasProcedure name = true ↔ name = other ∨ sc.hasProcedure name = true := by
  obtain ⟨-, rfl⟩ := declareProcedure?_eq_some_iff.1 h
  simp [hasProcedure]

end Scope

/-! ### Outlines and their code -/

/-- An outline that fits the code so far: the procedures have different names, and only they are
visible, called or ended. -/
structure Outline.Sound (o : Outline) (code : List Piece) : Prop where
  distinct : o.Distinct
  known : ∀ {name : String}, o.scope.hasProcedure name = true → name ∈ o.headings.map (·.name)
  called : ∀ {p ret : String}, .call p ret ∈ code → p ∈ o.headings.map (·.name)
  ended : ∀ {p : String}, .finish p ∈ code → p ∈ o.headings.map (·.name)

namespace Outline.Sound

variable {o : Outline} {code : List Piece} {sc : Scope} {memory : Allocator} {symbol : Symbol}

theorem statement (ho : o.Sound code) {s' : Stock} {st : Stmt} {code' : List Piece}
    (h : Stmt.Coded o.scope o.stock st code' s') (label : String) :
    ({ o with stock := s' } : Outline).Sound (code ++ (.line (.label label) :: code')) where
  distinct := ho.distinct
  known := ho.known
  called := by
    intro p ret hp
    simp only [List.mem_append, List.mem_cons, reduceCtorEq, false_or] at hp
    exact hp.elim ho.called fun hp => ho.known (h.visible_of_call hp)
  ended := by
    intro p hp
    simp only [List.mem_append, List.mem_cons, reduceCtorEq, false_or] at hp
    exact hp.elim ho.ended fun hp => (h.not_finish p hp).elim

theorem declare (ho : o.Sound code) (h : o.scope.declare? symbol = some sc) :
    (o.declare sc memory).Sound code where
  distinct := ho.distinct
  known := fun hn => ho.known (by rwa [← Scope.hasProcedure_declare h])
  called := ho.called
  ended := ho.ended

theorem openBody (ho : o.Sound code) (memory : Allocator) {q : Heading} (hn : ∀ r ∈ o.headings, r.name ≠ q.name)
    (h : o.scope.declareProcedure? q.name = some sc) : (o.openBody sc memory q).Sound code where
  distinct := by
    simp only [Outline.Distinct, Outline.openBody, List.map_append, List.map_cons, List.map_nil,
      List.nodup_append, List.nodup_singleton, true_and]
    refine ⟨ho.distinct, ?_⟩
    intro a ha b hb
    obtain ⟨r, hr, rfl⟩ := List.mem_map.1 ha
    rw [List.mem_singleton.1 hb]
    exact hn r hr
  known := by
    intro name hname
    have := (Scope.hasProcedure_declareProcedure h).1 (by rwa [← Scope.hasProcedure_enter])
    rw [Outline.openBody, List.map_append, List.mem_append]
    exact this.symm.imp ho.known fun hn => by simp [hn]
  called := fun hp => by
    rw [Outline.openBody, List.map_append, List.mem_append]
    exact .inl (ho.called hp)
  ended := fun hp => by
    rw [Outline.openBody, List.map_append, List.mem_append]
    exact .inl (ho.ended hp)

theorem leave (ho : o.Sound code) : o.leave.Sound code where
  distinct := ho.distinct
  known := fun hn => ho.known (Scope.hasProcedure_of_leave hn)
  called := ho.called
  ended := ho.ended

theorem closeBody (ho : o.Sound code) {name : String} (hq : name ∈ o.headings.map (·.name)) :
    o.leave.Sound (code ++ [.finish name, .line (.endProc name)]) where
  distinct := ho.distinct
  known := fun hn => ho.known (Scope.hasProcedure_of_leave hn)
  called := by
    intro p ret hp
    simp only [List.mem_append, List.mem_cons, reduceCtorEq, List.not_mem_nil, or_false] at hp
    exact ho.called hp
  ended := by
    intro p hp
    simp only [List.mem_append, List.mem_cons, Piece.finish.injEq, reduceCtorEq,
      List.not_mem_nil, or_false] at hp
    rcases hp with hp | rfl
    · exact ho.ended hp
    · exact hq

/-- A new procedure has no calls and no end. -/
theorem procedure_eq (ho : o.Sound code) {q : Heading} (hn : ∀ r ∈ o.headings, r.name ≠ q.name) :
    q.procedure code = ⟨q.name, Gen.procedureLabel q.name, q.selector, [], none, q.pos⟩ := by
  have hnew : q.name ∉ o.headings.map (·.name) := by
    intro hmem
    obtain ⟨r, hr, hrn⟩ := List.mem_map.1 hmem
    exact hn r hr hrn
  have hcalls : Piece.calls code q.name = [] := by
    refine List.filterMap_eq_nil_iff.2 ?_
    rintro ⟨piece, i⟩ hmem
    cases piece with
    | call p ret =>
      refine if_neg fun hp => hnew ?_
      exact hp ▸ ho.called (List.fst_mem_of_mem_zipIdx hmem)
    | _ => rfl
  have hfinish : Piece.finish? code q.name = none := by
    rw [Piece.finish?, List.filterMap_eq_nil_iff.2]
    · rfl
    · rintro ⟨piece, i⟩ hmem
      cases piece with
      | finish p =>
        refine if_neg fun hp => hnew ?_
        exact hp ▸ ho.ended (List.fst_mem_of_mem_zipIdx hmem)
      | _ => rfl
  rw [Heading.procedure, hcalls, hfinish]

end Outline.Sound

/-- The procedures of a block come after those before it. -/
theorem Block.Coded.headings_prefix {label name : String} {o o' : Outline} {b : Block}
    {code : List Piece} (h : Block.Coded label name o b code o') : o.headings <+: o'.headings := by
  induction h with
  | code => exact List.prefix_rfl
  | scalar _ _ _ ih | array _ _ _ ih => exact ih
  | procedure _ _ _ _ _ ihb ihr => exact ((List.prefix_append _ _).trans ihb).trans ihr

/-- The outline after a block fits the code with the block. -/
theorem Block.Coded.sound {label name : String} {o o' : Outline} {b : Block}
    {code code' : List Piece} (h : Block.Coded label name o b code' o') (ho : o.Sound code) :
    o'.Sound (code ++ code') := by
  induction h generalizing code with
  | code h => exact ho.statement h _
  | scalar _ hs _ ih | array _ hs _ ih => exact ih (ho.declare hs)
  | @procedure _ _ o o₁ _ p _ _ code₁ code₂ selector memory sc hn hs _ hb _ ihb ihr =>
    have hq : ⟨p.text, selector, p.pos⟩ ∈ o₁.headings :=
      hb.headings_prefix.subset (by simp [Outline.openBody])
    have hbody := (ihb (ho.openBody _ hn hs)).closeBody (List.mem_map_of_mem hq)
    simpa using ihr hbody

/-! ### Declarations -/

namespace Gen

variable {o : Outline} {code : List Piece} {g' : Generator} {u : Unit}

theorem of_declare {x : Token} {symbol : Symbol} {g : Generator}
    (h : declare x symbol g = .ok u g') :
    ∃ sc, g.scope.declare? symbol = some sc ∧ g' = { g with scope := sc } := by
  obtain ⟨_, _, hget, h⟩ := of_bind h
  cases hget
  cases hs : g.scope.declare? symbol with
  | none => simp only [hs] at h; exact (not_fail h).elim
  | some sc =>
    simp only [hs] at h
    cases h
    exact ⟨sc, rfl, rfl⟩

theorem of_declareScalar {block : String} {x : Token} {width : Width}
    (h : declareVariable block x width none (o.generator code) = .ok u g') :
    ∃ v memory sc, (o.stock.memory.locate x.pos).defineVar x.text width block = (.ok v, memory)
      ∧ o.scope.declare? (.scalar v) = some sc ∧ g' = (o.declare sc memory).generator code := by
  obtain ⟨_, _, rfl, h⟩ := after of_locate h
  obtain ⟨v, _, ⟨memory, hv, rfl⟩, h⟩ := after of_allocate h
  obtain ⟨sc, hs, rfl⟩ := of_declare h
  exact ⟨v, memory, sc, hv, hs, rfl⟩

theorem of_declareArray {block : String} {x : Token} {width : Width} {len : Nat}
    (h : declareVariable block x width (some len) (o.generator code) = .ok u g') :
    ∃ a memory sc,
      (o.stock.memory.locate x.pos).defineArray x.text width len block = (.ok a, memory)
      ∧ o.scope.declare? (.array a) = some sc ∧ g' = (o.declare sc memory).generator code := by
  obtain ⟨_, _, rfl, h⟩ := after of_locate h
  obtain ⟨a, _, ⟨memory, ha, rfl⟩, h⟩ := after of_allocate h
  obtain ⟨sc, hs, rfl⟩ := of_declare h
  exact ⟨a, memory, sc, ha, hs, rfl⟩

/-- A procedure that is not known yet gets a selector and is recorded behind the others. -/
theorem of_openProcedure {name : String} {pos : Pos} {p : Procedure} {g : Generator}
    (h : openProcedure name pos g = .ok p g') (hnew : ¬ g.procedures.any (·.name == name) = true) :
    ∃ selector memory, g.memory.defineVar ("$procret_" ++ name) .nibble "" = (.ok selector, memory)
      ∧ g' = { g with
        memory := memory
        procedures := g.procedures
          ++ [⟨name, procedureLabel name, selector, [], none, pos⟩] } := by
  obtain ⟨selector, _, ⟨memory, hd, rfl⟩, h⟩ := after of_allocate h
  obtain ⟨_, _, hput, h⟩ := of_bind h
  cases hput
  obtain ⟨-, rfl⟩ := of_pure h
  refine ⟨selector, memory, hd, ?_⟩
  beta_reduce
  rw [if_neg hnew]

theorem of_declareProcedure {p : Token} (ho : o.Sound code)
    (h : declareProcedure p (o.generator code) = .ok u g') :
    ∃ selector memory sc, (∀ q ∈ o.headings, q.name ≠ p.text)
      ∧ o.scope.declareProcedure? p.text = some sc
      ∧ (o.stock.memory.locate p.pos).defineVar ("$procret_" ++ p.text) .nibble ""
        = (.ok selector, memory)
      ∧ g' = (⟨sc, o.headings ++ [⟨p.text, selector, p.pos⟩],
        { o.stock with memory := memory }⟩ : Outline).generator code := by
  obtain ⟨_, _, hget, h⟩ := of_bind h
  cases hget
  by_cases hany : (o.generator code).procedures.any (·.name == p.text) = true
  · simp only [hany, if_true] at h
    exact (not_fail h).elim
  · have hn : ∀ q ∈ o.headings, q.name ≠ p.text := by
      intro q hq hname
      refine hany (List.any_eq_true.2 ⟨q.procedure code, List.mem_map_of_mem hq, ?_⟩)
      simpa [Heading.procedure] using hname
    simp only [hany] at h
    cases hs : o.scope.declareProcedure? p.text with
    | none =>
      simp only [Outline.scope_generator, hs] at h
      exact (not_fail h).elim
    | some sc =>
      simp only [Outline.scope_generator, hs] at h
      obtain ⟨_, _, hset, h⟩ := of_bind h
      cases hset
      obtain ⟨_, _, rfl, h⟩ := after of_locate h
      obtain ⟨_, _, hopen, h⟩ := of_bind h
      obtain ⟨selector, memory, hd, rfl⟩ := of_openProcedure hopen hany
      obtain ⟨-, rfl⟩ := of_pure h
      refine ⟨selector, memory, sc, hn, rfl, hd, ?_⟩
      have hq := ho.procedure_eq (q := ⟨p.text, selector, p.pos⟩) hn
      simp only [Outline.generator, List.map_append, List.map_cons, List.map_nil, hq]
      rfl

theorem of_inScope {x : Gen Unit} {g : Generator} (h : inScope x g = .ok u g') :
    ∃ u₁ g₁, x { g with scope := g.scope.enter } = .ok u₁ g₁
      ∧ g' = { g₁ with scope := g₁.scope.leave } := by
  obtain ⟨_, _, he, h⟩ := of_bind h
  cases he
  obtain ⟨u₁, g₁, hx, h⟩ := of_bind h
  cases h
  exact ⟨u₁, g₁, hx, rfl⟩

theorem of_endProcedure {name : String} (hd : o.Distinct) (hmem : name ∈ o.headings.map (·.name))
    (h : endProcedure name (o.generator code) = .ok u g') :
    g' = o.generator (code ++ [.finish name, .line (.endProc name)]) := by
  obtain ⟨found, _, ⟨rfl, hfound⟩, h⟩ := after of_procedure h
  obtain ⟨rfl, hnone⟩ | ⟨q, hq, rfl, rfl⟩ := hfound
  · obtain ⟨r, hr, hname⟩ := List.mem_map.1 hmem
    exact absurd hname (hnone r hr)
  · obtain ⟨entry, _, he, h⟩ := of_bind h
    cases he
    obtain ⟨_, _, rfl, h⟩ := after of_emit h
    obtain rfl := of_putProcedure o code q rfl hq rfl h
    rw [hd.map_procedure hq (code ++ [.finish q.name, .line (.endProc q.name)])]
    · simp [Outline.generator, Generator.grow, Generator.stock, Piece.plain, Heading.procedure]
    · simp only [Heading.procedure, Piece.calls_finish, Piece.finish?_finish, if_true]
      simp [Outline.generator]
    · intro r hr
      simp only [Heading.procedure, Piece.calls_finish, Piece.finish?_finish,
        if_neg (Ne.symm hr)]

end Gen

/-! ### Blocks -/

/-- The code of a block without inline assembly. -/
theorem Block.coded_of_generate {b : Block} {label name : String}
    {o : Outline} {code : List Piece} (ho : o.Sound code) {u : Unit} {g' : Generator}
    (h : b.generate label name (o.generator code) = .ok u g') :
    ∃ code' o', Block.Coded label name o b code' o' ∧ g' = o'.generator (code ++ code') := by
  induction b generalizing label name o code u g' with
  | fault why => exact (Gen.not_fail h).elim
  | code st =>
    obtain ⟨_, _, rfl, h⟩ := Gen.after Gen.outline_place h
    obtain ⟨code', s', hs, rfl⟩ := st.generates ho.distinct (s := o.stock) h
    exact ⟨_, _, .code hs, by simp [Outline.restock]⟩
  | declare x width len rest ih =>
    cases len with
    | none =>
      obtain ⟨_, _, ⟨v, memory, sc, hv, hs, rfl⟩, h⟩ := Gen.after Gen.of_declareScalar h
      obtain ⟨code', o', hr, rfl⟩ := ih (ho.declare hs) h
      exact ⟨_, _, .scalar hv hs hr, rfl⟩
    | some len =>
      obtain ⟨_, _, ⟨a, memory, sc, ha, hs, rfl⟩, h⟩ := Gen.after Gen.of_declareArray h
      obtain ⟨code', o', hr, rfl⟩ := ih (ho.declare hs) h
      exact ⟨_, _, .array ha hs hr, rfl⟩
  | procedure p body close rest ihb ihr =>
    obtain ⟨_, _, ⟨selector, memory, sc, hn, hs, hd, rfl⟩, h⟩ :=
      Gen.after (Gen.of_declareProcedure ho) h
    obtain ⟨_, _, ⟨_, _, hbody, rfl⟩, h⟩ := Gen.after Gen.of_inScope h
    have hopen := ho.openBody memory (q := ⟨p.text, selector, p.pos⟩) hn hs
    obtain ⟨code₁, o₁, hcode₁, rfl⟩ := ihb hopen hbody
    have hq : p.text ∈ o₁.headings.map (·.name) :=
      List.mem_map_of_mem (f := (·.name)) (hcode₁.headings_prefix.subset
        (by simp [Outline.openBody] : (⟨p.text, selector, p.pos⟩ : Heading) ∈ _))
    obtain ⟨_, _, ⟨rfl, rfl⟩, h⟩ := Gen.after Gen.of_pass h
    have hsound := hcode₁.sound hopen
    obtain ⟨_, _, rfl, h⟩ := Gen.after (Gen.of_endProcedure (o := o₁.leave) hsound.distinct hq) h
    obtain ⟨code₂, o₂, hcode₂, rfl⟩ := ihr (hsound.closeBody hq) h
    exact ⟨_, _, .procedure hn hs hd hcode₁ hcode₂, by simp⟩

end NibblePascal
