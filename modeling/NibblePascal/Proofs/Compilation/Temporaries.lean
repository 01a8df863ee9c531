import NibblePascal.Proofs.Compilation.Accepted
import NibblePascal.Proofs.Generation.Entered

/-!
# Temporaries of accepted programs

While a program is generated, the temporaries on loan are the results that expressions still hold
and the limits of the counted loops around the place.  At the end all of them are in their pools.
-/

namespace NibblePascal

variable {files : Files} {o : Options} {name text : String} {p : Program} {c : Compilation}

/-- Where a statement is reached, the limits around it are on loan. -/
theorem Program.Enters.lends (hfits : p.block.arraysFit = true) {limits : List Var} {st : Stmt}
    {g : Generator} (h : p.Enters limits st g) :
    (∃ (o : Outline) (code : List Piece), g = o.generator code ∧ o.Distinct ∧ o.Lends limits)
      ∧ ∀ v ∈ limits, v.temp = true := by
  obtain ⟨g₁, hemit, h⟩ := h
  obtain rfl := Gen.of_emit hemit
  obtain ⟨o', code', st', ho', hd, h⟩ :=
    h.begins Outline.lends_invariant hfits rfl Program.start_sound Outline.lends_start
  obtain ⟨⟨s', code'', rfl, hw⟩, htaken⟩ := h.books hd ho'.ledger (s := o'.stock) rfl ho'.memory
  rw [List.append_nil] at hw
  refine ⟨⟨_, code'', rfl, hd, ho'.scope, hw⟩, fun v hv => ?_⟩
  obtain ⟨s₁, s₂, w, us, hw₁, memory, ht, -⟩ := htaken v hv
  exact (hw₁.take ht).2

/-- The code of expressions one after another, whose results are all kept. -/
def Gen.results (es : List Expr) : Gen (List Var) := es.mapM Expr.generate

/-- Results that are kept stay on loan. -/
theorem lends_of_results {es : List Expr} {vs us : List Var} {g g' : Generator}
    (hsc : ∀ v, .scalar v ∈ g.scope.symbols → v.temp = false) (hl : g.memory.Lends us)
    (h : Gen.results es g = .ok vs g') : g'.memory.Lends (vs ++ us) := by
  induction es generalizing vs us g with
  | nil =>
    obtain ⟨rfl, rfl⟩ := Gen.of_pure h
    exact hl
  | cons e es ih =>
    rw [Gen.results, List.mapM_cons] at h
    obtain ⟨v, _, ⟨lines, s₁, hc, rfl⟩, h⟩ := Gen.after Expr.coded_of_generate h
    obtain ⟨vs', g₂, hes, h⟩ := Gen.of_bind h
    obtain ⟨rfl, rfl⟩ := Gen.of_pure h
    have hledger : Ledger g.scope fun s vs => s.memory.Lends vs :=
      Allocator.Lends.ledger fun hx => hsc _ (Scope.mem_of_find? hx).1
    exact (ih (g := g.grow lines s₁) hsc (hc.books hledger hl) hes).rearrange List.perm_middle

/-- Temporaries are neither lost nor given out twice.  At the end of an accepted program every
temporary is in the pool of its width, once.  Before and after every statement the temporaries in
no pool are the limits of the counted loops around it.  While results of expressions are kept
there, however many, the temporaries among them are different from each other and from the limits,
and none of them is in a pool. -/
theorem temporaries_balanced (h : Accepts files o name text p c) :
    (∀ v ∈ c.memory.temporaries, ∀ w,
        (c.memory.pools.get w).count v = if w = v.width then 1 else 0)
      ∧ (∀ limits st g g', p.Enters limits st g → st.generate g = .ok () g' →
        ∀ v, (v ∈ g.memory.outstanding ↔ v ∈ limits) ∧ (v ∈ g'.memory.outstanding ↔ v ∈ limits))
      ∧ ∀ limits st g es vs g', p.Enters limits st g → Gen.results es g = .ok vs g' →
        (vs.filter (·.temp) ++ limits).Nodup
          ∧ ∀ v, v ∈ g'.memory.outstanding ↔ v ∈ vs.filter (·.temp) ++ limits := by
  obtain ⟨g, hgen, -, hmemory, -⟩ := h.generated
  have hfits : p.block.arraysFit = true := h.arraysFit
  refine ⟨?_, ?_, ?_⟩
  · obtain ⟨code, outline, hcode, -, -, -, hmem⟩ := Program.lines_of_generate hgen
    have hlends := (hcode.keeps Outline.lends_invariant hfits Outline.lends_start).memory
    rw [hmemory, hmem]
    intro v hv w
    obtain ⟨hv, htemp⟩ := List.mem_filter.1 hv
    exact hlends.count_pool hv htemp w
  · intro limits st g g' henters hst v
    obtain ⟨⟨outline, code, rfl, hd, hlends⟩, htemp⟩ := henters.lends hfits
    obtain ⟨code', s', hcode, rfl⟩ := st.generates hd (s := outline.stock) hst
    have hlends' := hcode.books hlends.ledger hlends.memory
    have hiff : v ∈ limits ∧ v.temp = true ↔ v ∈ limits := and_iff_left_of_imp (htemp v)
    exact ⟨hlends.memory.mem_outstanding.trans hiff, hlends'.mem_outstanding.trans hiff⟩
  · intro limits st g es vs g' henters hes
    obtain ⟨⟨outline, code, rfl, hd, hlends⟩, htemp⟩ := henters.lends hfits
    have hheld := lends_of_results hlends.scope hlends.memory hes
    have hfilter : (vs ++ limits).filter (·.temp) = vs.filter (·.temp) ++ limits := by
      rw [List.filter_append, List.filter_eq_self.2 htemp]
    refine ⟨hfilter ▸ hheld.nodup_loans, fun v => ?_⟩
    rw [hheld.mem_outstanding, ← hfilter, List.mem_filter]

/-- A counted loop whose body takes temporaries. -/
def loopText : String := "var i, n: byte;\nbegin\n  for i := 1 to 3 do n := n * i + 2\nend.\n"

/-- Whether a program with two scalars begins with a counted loop. -/
def Program.startsWithLoop (p : Program) : Bool :=
  match p.block with
  | .declare _ _ _ (.declare _ _ _ (.code (.block (.seq (.forDo ..) _) _))) => true
  | _ => false

theorem temporaries_balanced_loop : ∃ p c limit body g, Accepts {} {} "loop" loopText p c
    ∧ p.Enters [limit] body g
    ∧ (∀ v ∈ c.memory.temporaries, ∀ w,
        (c.memory.pools.get w).count v = if w = v.width then 1 else 0)
      ∧ (∀ limits st g g', p.Enters limits st g → st.generate g = .ok () g' →
        ∀ v, (v ∈ g.memory.outstanding ↔ v ∈ limits) ∧ (v ∈ g'.memory.outstanding ↔ v ∈ limits))
      ∧ ∀ limits st g es vs g', p.Enters limits st g → Gen.results es g = .ok vs g' →
        (vs.filter (·.temp) ++ limits).Nodup
          ∧ ∀ v, v ∈ g'.memory.outstanding ↔ v ∈ vs.filter (·.temp) ++ limits := by
  have haccepted : isAccepted {} {} "loop" loopText (·.startsWithLoop) = true := by decide +kernel
  obtain ⟨p, c, h, hloop⟩ := exists_accepts_of_isAccepted haccepted
  obtain ⟨g, hgen, -⟩ := h.generated
  -- Generation succeeds, so it gets through the start of the loop.
  have hbody : ∃ limit body g, p.Enters [limit] body g := by
    unfold Program.startsWithLoop at hloop
    split at hloop
    case h_2 => cases hloop
    case h_1 body _ _ hblock =>
      unfold Program.generate at hgen
      rw [hblock] at hgen
      obtain ⟨_, g₁, hemit, hgen⟩ := Gen.of_bind hgen
      obtain ⟨_, _, hscope, -⟩ := Gen.of_bind hgen
      obtain ⟨_, _, hblk, -⟩ := Gen.of_inScope hscope
      obtain ⟨_, _, hx, hblk⟩ := Gen.of_bind hblk
      obtain ⟨_, _, hy, hblk⟩ := Gen.of_bind hblk
      obtain ⟨_, _, hplace, hblk⟩ := Gen.of_bind hblk
      obtain ⟨_, _, hseq, -⟩ := Gen.of_bind hblk
      obtain ⟨_, _, hfor, -⟩ := Gen.of_bind hseq
      obtain ⟨k, g', hopen, -⟩ := Gen.of_bind hfor
      refine ⟨k.limit, body, g', g₁, hemit, ?_⟩
      rw [hblock]
      exact .declare hx (.declare hy (.code hplace
        (.block (.seqFirst (.forDo hopen .self)))))
  obtain ⟨limit, body, g', henters⟩ := hbody
  exact ⟨p, c, limit, body, g', h, henters, temporaries_balanced h⟩

end NibblePascal
