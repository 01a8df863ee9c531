import NibblePascal.Proofs.Assembly.Guarded
import NibblePascal.Proofs.Generation.Invariant

/-!
# Generated code is guarded

The code of a tree uses the names in scope and temporaries that are not in use where it begins.  So
it is guarded in every territory that has these, `T.Spans sc memory vs`, where the memory is that
behind the code and `vs` are the variables in use.
-/

namespace NibblePascal

/-- The territory has the names in scope and the temporaries made so far, those among `vs` apart. -/
structure Territory.Spans (T : Territory) (sc : Scope) (memory : Allocator) (vs : List Var) : Prop
    where
  temporary : ∀ v ∈ memory.temporaries, v ∉ vs → T.scalar v
  scalar : ∀ {x v}, sc.find? x = some (.scalar v) → T.scalar v
  array : ∀ {x r}, sc.find? x = some (.array r) → T.array r ∧ r.Placed

/-! ### Temporaries taken on the way -/

namespace Allocator

variable {a a' : Allocator} {v : Var} {w : Width}

/-- A temporary that is taken has been made, at the width that was asked for. -/
theorem Lends.mem_of_take {vs : List Var} (h : a.Lends vs) (ht : a.temp w = (.ok v, a')) :
    v ∈ a'.temporaries ∧ v.width = w := by
  obtain ⟨h', htemp⟩ := h.take ht
  constructor
  · refine h'.perm.mem_iff.1 (List.mem_append_right _ ?_)
    simp [htemp]
  · unfold temp at ht
    split at ht
    case h_1 u rest hpool =>
      obtain ⟨rfl, -⟩ : u = v ∧ _ = a' := by simpa using ht
      exact h.width w u (by simp [hpool])
    case h_2 =>
      obtain ⟨-, rfl, -⟩ := of_define ht
      rfl

/-- A temporary that is taken was not in use. -/
theorem Lends.notMem_of_take {vs : List Var} (h : a.Lends vs) (ht : a.temp w = (.ok v, a')) :
    v ∉ vs := by
  obtain ⟨h', htemp⟩ := h.take ht
  have hnodup := h'.nodup_loans
  rw [List.filter_cons_of_pos htemp, List.nodup_cons, List.mem_filter] at hnodup
  exact fun hv => hnodup.1 ⟨hv, htemp⟩

end Allocator

namespace Territory

variable {T : Territory} {sc : Scope} {s s' : Stock} {v : Var} {w : Width} {lines : List Line}
  {vs : List Var}

/-- What has all variables later has those made so far. -/
theorem Spans.before {a a' : Allocator} (h : T.Spans sc a' vs) (hg : a.Grows a') : T.Spans sc a vs :=
  ⟨fun v hv => h.temporary v (hg.temporaries hv), h.scalar, h.array⟩

theorem Spans.cons {a : Allocator} (h : T.Spans sc a vs) (u : Var) : T.Spans sc a (u :: vs) :=
  ⟨fun v hv hvs => h.temporary v hv fun hmem => hvs (.tail _ hmem), h.scalar, h.array⟩

@[simp] theorem spans_release : T.Spans sc (s.release v).memory vs ↔ T.Spans sc s.memory vs := by
  refine ⟨fun h => h.before ((Allocator.Grows.refl _).release v), fun h => h.before ?_⟩
  rw [Stock.release, Allocator.release]
  split
  exacts [⟨List.Subset.refl _, List.Subset.refl _⟩, .refl _]

theorem spans_skip {n : Nat} : T.Spans sc (s.skip n).memory vs ↔ T.Spans sc s.memory vs := Iff.rfl

theorem Spans.of_takes (h : T.Spans sc s'.memory vs) (ht : s.Takes w v s') :
    T.Spans sc s.memory vs := by
  obtain ⟨memory, ht, rfl⟩ := ht
  exact h.before ((Allocator.Grows.refl _).temp ht)

/-- A temporary that is taken is in the territory. -/
theorem Spans.taken (h : T.Spans sc s'.memory vs) (ht : s.Takes w v s') (hl : s.memory.Lends vs) :
    T.scalar v ∧ v.width = w := by
  obtain ⟨memory, ht, rfl⟩ := ht
  obtain ⟨hmem, hw⟩ := hl.mem_of_take ht
  exact ⟨h.temporary v hmem (hl.notMem_of_take ht), hw⟩

theorem keeps_freeLines (h : T.scalar v) : T.Keeps (freeLines v) := by
  refine Plain.keeps ?_
  have hcell : T.Owns v.addr := owns_cell_zero h
  unfold freeLines
  split <;> simp [hcell]

end Territory

/-! ### Operands -/

section Operands

variable {T : Territory} {sc : Scope} {s s' : Stock} {u v v' w x y x' y' res : Var} {lines : List Line}
  {vs : List Var}

theorem Converted.spans {width : Width} (h : Converted s v width lines v' s')
    (hT : T.Spans sc s'.memory vs) : T.Spans sc s.memory vs :=
  hT.before (h.upholds (Allocator.Grows.ledger sc _) (.refl _))

theorem Matched.spans (h : Matched s x y lines x' y' s') (hT : T.Spans sc s'.memory vs) :
    T.Spans sc s.memory vs :=
  hT.before (h.upholds (Allocator.Grows.ledger sc _) (.refl _))

theorem Operated.spans {op : BinaryOp} (h : Operated s x y res op lines s')
    (hT : T.Spans sc s'.memory vs) : T.Spans sc s.memory vs :=
  hT.before (h.upholds (Allocator.Grows.ledger sc _) (.refl _))

theorem Expr.Coded.spans {e : Expr} (h : Expr.Coded sc s e lines v s') (hT : T.Spans sc s'.memory vs) :
    T.Spans sc s.memory vs :=
  hT.before (h.upholds (Allocator.Grows.ledger sc _) (.refl _))

theorem Cond.Coded.spans {chain : Option Chain} {c : Cond} {test : List TestLine}
    (h : Cond.Coded sc chain s c test s') (hT : T.Spans sc s'.memory vs) : T.Spans sc s.memory vs :=
  hT.before (h.upholds (Allocator.Grows.ledger sc _) (.refl _))

theorem Stmt.Coded.spans {st : Stmt} {code : List Piece} (h : Stmt.Coded sc s st code s')
    (hT : T.Spans sc s'.memory vs) : T.Spans sc s.memory vs :=
  hT.before (h.upholds (Allocator.Grows.ledger sc _) (.refl _))

theorem Converted.guarded {width : Width} (h : Converted s v width lines v' s')
    (hl : s.memory.Lends vs) (hT : T.Spans sc s'.memory vs) (hv : T.scalar v) :
    T.Keeps lines ∧ T.scalar v' ∧ v'.width = width := by
  cases h with
  | same hw => exact ⟨.nil, hv, hw⟩
  | resized _ ht =>
    obtain ⟨hres, hw⟩ := (Territory.spans_release.1 hT).taken ht hl
    exact ⟨(Territory.plain_resize hv hres).keeps.append (Territory.keeps_freeLines hv), hres, hw⟩

/-- Matched operands have one width. -/
theorem Matched.guarded (h : Matched s x y lines x' y' s') (hl : s.memory.Lends vs)
    (hT : T.Spans sc s'.memory vs) (hx : T.scalar x) (hy : T.scalar y) :
    T.Keeps lines ∧ T.scalar x' ∧ T.scalar y' ∧ x'.width = y'.width := by
  cases h with
  | same hw => exact ⟨.nil, hx, hy, hw⟩
  | left _ hc =>
    obtain ⟨hk, hx', hw⟩ := hc.guarded hl hT hx
    exact ⟨hk, hx', hy, hw⟩
  | right _ hc =>
    obtain ⟨hk, hy', hw⟩ := hc.guarded hl hT hy
    exact ⟨hk, hx, hy', hw.symm⟩

theorem Operated.guarded {op : BinaryOp} (h : Operated s x y res op lines s')
    (hL : Ledger sc fun s vs => s.memory.Lends vs) (hl : s.memory.Lends vs)
    (hT : T.Spans sc s'.memory vs) (hx : T.scalar x) (hy : T.scalar y) (hr : T.scalar res)
    (hxy : x.width = y.width) (hxr : x.width = res.width) : T.Keeps lines := by
  have hcells : ∀ {u v : Var}, u.width = v.width → u.cells = v.cells := fun h => by
    rw [Var.cells, Var.cells, h]
  cases h with
  | combine => exact (Territory.plain_combine _ hx hy hr (hcells hxy).le (hcells hxr).le).keeps
  | multiply hu hw =>
    simp only [Territory.spans_release, Territory.spans_skip] at hT
    obtain ⟨hu', hwu⟩ := (hT.of_takes hw).taken hu hl
    obtain ⟨hw', hww⟩ := (hT.cons _).taken hw (hL.take hu hl)
    refine (Territory.plain_cons.2 ⟨Territory.admits_comment _, ?_⟩ : T.Plain _).keeps
    exact Territory.plain_product _ hx hy hr hu' hw' (hcells hwu.symm)
      (hcells (hxy.symm.trans hww.symm)) (hcells (hxr.symm.trans hwu.symm))
  | divide remainder hu hw =>
    simp only [Territory.spans_release, Territory.spans_skip] at hT
    obtain ⟨hu', hwu⟩ := (hT.of_takes hw).taken hu hl
    obtain ⟨hw', hww⟩ := (hT.cons _).taken hw (hL.take hu hl)
    refine (Territory.plain_cons.2 ⟨Territory.admits_comment _, ?_⟩ : T.Plain _).keeps
    exact Territory.plain_quotient remainder _ hx hy hr hu' hw' (hcells hwu.symm)
      (hcells (hxy.symm.trans hww.symm)) (hcells (hww.trans hwu.symm)) (hcells (hwu.trans hxr))

end Operands

/-! ### Trees -/

variable {T : Territory} {sc : Scope} {s s' : Stock} {vs : List Var}

/-- The code of an expression is guarded, and so is its result. -/
theorem Expr.Coded.guarded {e : Expr} {lines : List Line} {v : Var} (h : Expr.Coded sc s e lines v s')
    (hL : Ledger sc fun s vs => s.memory.Lends vs) (hl : s.memory.Lends vs)
    (hT : T.Spans sc s'.memory vs) : T.Keeps lines ∧ T.scalar v := by
  induction h generalizing vs with
  | scalar hx => exact ⟨.nil, hT.scalar hx⟩
  | literal ht =>
    obtain ⟨hv, -⟩ := hT.taken ht (hl.locate _)
    exact ⟨(Territory.plain_constant _ hv).keeps, hv⟩
  | negLiteral ht =>
    obtain ⟨hv, -⟩ := hT.taken ht (hl.locate _)
    exact ⟨(Territory.plain_constant _ hv).keeps, hv⟩
  | element ha hi htr hto ih =>
    simp only [Territory.spans_release] at hT
    have hT₂ := hT.of_takes hto
    have hT₁ := hT₂.of_takes htr
    have hl₁ := hi.books hL (hl.locate _)
    have hl₂ := hL.take htr hl₁
    obtain ⟨hk, hi⟩ := ih (hl.locate _) hT₁
    obtain ⟨hr, hwr⟩ := (hT₂.cons _).taken htr hl₁
    obtain ⟨ho, hwo⟩ := ((hT.cons _).cons _).taken hto hl₂
    obtain ⟨harr, hplaced⟩ := hT.array ha
    refine ⟨hk.append (.append ?_ (Territory.keeps_freeLines hi)), hr⟩
    exact Territory.keeps_readElement hplaced harr hi hr hwr.symm ho hwo
  | halfNibble hx => exact ⟨.nil, hT.scalar hx⟩
  | @half s s' pos upper x v res w hx hw ht =>
    obtain ⟨hr, hwr⟩ := hT.taken ht (hl.locate _)
    refine ⟨(Territory.plain_extract (hT.scalar hx) hr ?_).keeps, hr⟩
    rw [Var.cells, Var.cells, hwr]
    cases hv : v.width <;> rw [hv] at hw <;> cases hw <;> cases upper <;> simp [Width.cells]
  | paren _ ih => exact ih hl hT
  | negate h hc ht ih =>
    simp only [Territory.spans_release] at hT
    have hT₂ := hT.of_takes ht
    have hl₁ := h.books hL hl
    obtain ⟨hk, hv⟩ := ih hl (hc.spans hT₂)
    obtain ⟨hk', hwide, -⟩ := hc.guarded hl₁ (hT₂.cons _) hv
    obtain ⟨hr, hwr⟩ := (hT.cons _).taken ht (hc.books hL hl₁)
    have hcells : Var.cells _ = Var.cells _ := congrArg Width.cells hwr
    refine ⟨hk.append (hk'.append (.append ?_ (.append ?_ (Territory.keeps_freeLines hwide)))), hr⟩
    · exact (Territory.plain_clearFrom 0 hr).keeps
    · exact (Territory.plain_combine .sub hr hwide hr hcells.le le_rfl).keeps
  | binary ha hb hm ht ho iha ihb =>
    simp only [Territory.spans_release] at hT
    have hT₄ := ho.spans hT
    have hT₃ := hT₄.of_takes ht
    have hT₂ := hm.spans hT₃
    have hl₁ := ha.books hL hl
    have hl₂ := hb.books hL hl₁
    have hl₃ := hm.books hL hl₂
    obtain ⟨hka, ha⟩ := iha hl (hb.spans hT₂)
    obtain ⟨hkb, hb⟩ := ihb hl₁ (hT₂.cons _)
    obtain ⟨hkm, ha', hb', hw⟩ := hm.guarded hl₂ ((hT₃.cons _).cons _) ha hb
    obtain ⟨hr, hwr⟩ := ((hT₄.cons _).cons _).taken ht hl₃
    have hko := ho.guarded hL (hL.take ht hl₃) (((hT.cons _).cons _).cons _) ha' hb' hr hw hwr.symm
    exact ⟨hka.append (hkb.append (hkm.append (hko.append
      ((Territory.keeps_freeLines ha').append (Territory.keeps_freeLines hb'))))), hr⟩

namespace Cond.Coded

open Code (closeTest_append closeTest_map_line)

theorem keeps_continued {yes no yes' no' next : String} {test : List TestLine}
    (h : ∀ yes no, T.Keeps (Code.closeTest yes no test)) :
    T.Keeps (Code.closeTest yes no (Code.continued yes' no' next test)) := by
  rw [Code.continued, closeTest_map_line]
  exact (h yes' no').append (Territory.Plain.keeps (by simp))

theorem keeps_merged {yes no yes' no' : String} {test : List TestLine}
    (h : ∀ yes no, T.Keeps (Code.closeTest yes no test)) :
    T.Keeps (Code.closeTest yes no (Code.merged yes' no' test)) := by
  rw [Code.merged, closeTest_append, closeTest_map_line]
  exact (h yes' no').append (Territory.Plain.keeps (by simp [Code.closeTest]))

/-- The test of a condition is guarded wherever its exits lead. -/
theorem guarded {chain : Option Chain} {c : Cond} {test : List TestLine}
    (h : Cond.Coded sc chain s c test s') (hL : Ledger sc fun s vs => s.memory.Lends vs)
    (hl : s.memory.Lends vs) (hT : T.Spans sc s'.memory vs)
    (hchain : ∀ k ∈ chain, ∀ yes no, T.Keeps (Code.closeTest yes no k.test)) (yes no : String) :
    T.Keeps (Code.closeTest yes no test) := by
  induction h generalizing vs yes no with
  | compare ha hb hm =>
    simp only [Territory.spans_release, Territory.spans_skip] at hT
    have hT₂ := hm.spans hT
    have hl₁ := ha.books hL hl
    obtain ⟨hka, ha⟩ := ha.guarded hL hl (hb.spans hT₂)
    obtain ⟨hkb, hvb⟩ := hb.guarded hL hl₁ (hT₂.cons _)
    obtain ⟨hkm, ha', hb', hw⟩ := hm.guarded (hb.books hL hl₁) ((hT.cons _).cons _) ha hvb
    have hcells : Var.cells _ = Var.cells _ := congrArg Width.cells hw
    rw [closeTest_append, closeTest_append, closeTest_map_line, closeTest_map_line]
    exact (hka.append (hkb.append hkm)).append
      ((Territory.plain_relationTest _ _ yes no ha' hb' hcells.le).keeps.append
        ((Territory.keeps_freeLines ha').append (Territory.keeps_freeLines hb')))
  | nonzero h =>
    obtain ⟨hk, hv⟩ := h.guarded hL hl (Territory.spans_release.1 hT)
    rw [closeTest_append, closeTest_append, closeTest_map_line, closeTest_map_line]
    exact hk.append ((Territory.plain_nonzeroTest yes no hv).keeps.append
      (Territory.keeps_freeLines hv))
  | odd h =>
    obtain ⟨hk, hv⟩ := h.guarded hL hl (Territory.spans_release.1 hT)
    rw [closeTest_append, closeTest_append, closeTest_map_line, closeTest_map_line]
    exact hk.append ((Territory.plain_oddTest yes no hv).keeps.append (Territory.keeps_freeLines hv))
  | group _ ih => exact ih hl hT nofun yes no
  | and hcl hcr ihl ihr =>
    rw [closeTest_append]
    exact (keeps_continued (ihl hl (hcr.spans hT) nofun)).append
      (keeps_merged (ihr (hcl.books hL hl) hT nofun))
  | or hcl hcr ihl ihr =>
    refine ihr (hcl.books hL hl) hT ?_ yes no
    rintro k ⟨⟩
    exact ihl hl (hcr.spans hT) nofun
  | next hcl hcr ihl ihr =>
    refine ihr (hcl.books hL hl) hT ?_ yes no
    rintro k ⟨⟩ yes no
    rw [closeTest_append]
    exact (keeps_continued (hchain _ rfl)).append (ihl hl (hcr.spans hT) nofun yes no)
  | last _ h ih =>
    rw [closeTest_append]
    exact (keeps_continued (hchain _ rfl)).append (keeps_merged (ih hl hT nofun))

end Cond.Coded

/-! ### Statements -/

theorem Territory.plain_stepOp (op : StepOp) {v : Var} (h : T.scalar v) : T.Plain (op.code v) := by
  cases op with
  | inc => exact plain_step .add h
  | dec => exact plain_step .sub h
  | shl => exact plain_shiftLeft h
  | shr => exact plain_shiftRight h

theorem Territory.plain_advanceCounter (down : Bool) {v : Var} (h : T.scalar v) :
    T.Plain (Code.advanceCounter down v) := by
  unfold Code.advanceCounter
  split
  exacts [plain_step .sub h, plain_step .add h]

namespace Stmt.Coded

theorem keeps_test {yes no : Nat} {test : List TestLine}
    (h : ∀ yes no, T.Keeps (Code.closeTest yes no test)) :
    T.Keeps ((Piece.test yes no test).map Piece.plain) := by
  rw [Piece.test, Piece.map_plain_ofLines]
  exact h _ _

/-- The code of a statement is guarded, calls apart. -/
theorem guarded {st : Stmt} {code : List Piece} (h : Stmt.Coded sc s st code s')
    (hst : st.asmFree = true) (hL : Ledger sc fun s vs => s.memory.Lends vs)
    (hl : s.memory.Lends vs) (hT : T.Spans sc s'.memory vs) : T.Keeps (code.map Piece.plain) := by
  have hplain : ∀ {lines : List Line}, T.Plain lines → T.Keeps lines := fun h => h.keeps
  have hfree : ∀ {v}, T.scalar v → T.Keeps (freeLines v) := Territory.keeps_freeLines
  -- The condition of a statement continues no chain.
  have hnone : ∀ k ∈ (none : Option Chain), ∀ yes no, T.Keeps (Code.closeTest yes no k.test) := by
    simp
  have hmark : ∀ n, T.Keeps [Piece.plain (.mark n)] := fun n => hplain (by simp [Piece.mark, Piece.plain])
  have hgoto : ∀ n, T.Keeps [Piece.plain (.goto n)] := fun n => hplain (by simp [Piece.goto, Piece.plain])
  induction h generalizing vs with
  | skip => exact .nil
  | nop => exact hplain (by simp [Piece.plain])
  | seq hf hr ihf ihr =>
    obtain ⟨hf', hr'⟩ := Bool.and_eq_true_iff.1 hst
    rw [List.map_append]
    exact (ihf hf' hl (hr.spans hT)).append (ihr hr' (hf.books hL hl) hT)
  | block _ ih => exact ih hst hl hT
  | assign hx hv =>
    rw [Piece.map_plain_ofLines]
    obtain ⟨hk, hv⟩ := hv.guarded hL hl (Territory.spans_release.1 hT)
    exact hk.append ((Territory.plain_resize hv (hT.scalar hx)).keeps.append (hfree hv))
  | setElement hx hi hv hc ho =>
    rw [Piece.map_plain_ofLines]
    simp only [Territory.spans_release] at hT
    have hT₃ := hT.of_takes ho
    have hT₂ := hc.spans hT₃
    have hl₁ := hi.books hL hl
    have hl₂ := hv.books hL hl₁
    obtain ⟨hki, hi⟩ := hi.guarded hL hl (hv.spans hT₂)
    obtain ⟨hkv, hv⟩ := hv.guarded hL hl₁ (hT₂.cons _)
    obtain ⟨hkc, hv', hw⟩ := hc.guarded hl₂ ((hT₃.cons _).cons _) hv
    obtain ⟨ho', hwo⟩ := ((hT.cons _).cons _).taken ho (hc.books hL hl₂)
    obtain ⟨harr, hplaced⟩ := hT.array hx
    have hwrite := Territory.keeps_writeElement hplaced harr hi hv' hw.symm ho' hwo
    exact hki.append (hkv.append (hkc.append (hwrite.append ((hfree hi).append (hfree hv')))))
  | fillList hx =>
    rw [Piece.map_plain_ofLines]
    exact Territory.keeps_fillArray (hT.array hx).2 (hT.array hx).1 _
  | fillText hx =>
    rw [Piece.map_plain_ofLines]
    exact Territory.keeps_fillArray (hT.array hx).2 (hT.array hx).1 _
  | copyArray hx hy =>
    rw [Piece.map_plain_ofLines]
    exact ⟨trivial, Territory.keeps_copyArray (hT.array hy).2 (hT.array hx).2 (hT.array hy).1
      (hT.array hx).1⟩
  | call => exact hplain (by simp [Piece.mark, Piece.plain])
  | asm => cases hst
  | ifThen hc hy ih =>
    have hcond := hc.guarded hL hl (hy.spans hT) hnone
    have hbody := ih hst (hc.books hL hl) hT
    rw [Piece.ifThen, List.map_append, List.map_cons, List.map_append]
    exact (keeps_test hcond).append ((hmark _).append (hbody.append (hmark _)))
  | ifElse hc hy hn ihy ihn =>
    obtain ⟨hy', hn'⟩ := Bool.and_eq_true_iff.1 hst
    have hTy := hn.spans hT
    have hl₁ := hc.books hL hl
    have hcond := hc.guarded hL hl (hy.spans hTy) hnone
    have hyes := ihy hy' hl₁ hTy
    have hno := ihn hn' (hy.books hL hl₁) hT
    simp only [Piece.ifElse, List.map_append, List.map_cons, List.map_nil]
    exact (keeps_test hcond).append ((hmark _).append (hyes.append ((hgoto _).append
      ((hmark _).append (hno.append (hmark _))))))
  | whileDo hc hb ih =>
    have hcond := hc.guarded hL hl (hb.spans hT) hnone
    have hbody := ih hst (hc.books hL hl) hT
    simp only [Piece.whileDo, List.map_append, List.map_cons, List.map_nil]
    exact (hmark _).append ((keeps_test hcond).append ((hmark _).append (hbody.append
      ((hgoto _).append (hmark _)))))
  | repeatUntil hb hc ih =>
    have hbody := ih hst hl (hc.spans hT)
    have hcond := hc.guarded hL (hb.books hL hl) hT hnone
    simp only [Piece.repeatUntil, List.map_append, List.map_cons, List.map_nil]
    exact (hmark _).append (hbody.append ((keeps_test hcond).append (hmark _)))
  | @forDo s s₁ s₂ s₃ s₄ x down first last body v start bound limit _ _ code hx hf hb ht hw hbody ih =>
    have hT₄ : T.Spans sc s₄.memory vs := Territory.spans_release.1 hT
    have hT₃ : T.Spans sc s₃.memory vs := Territory.spans_release.1 (hbody.spans hT₄)
    have hT₂ := hT₃.of_takes ht
    have hT₁ := hb.spans hT₂
    have hl₁ := hL.release (hf.books hL hl)
    obtain ⟨hkf, hstart⟩ := hf.guarded hL hl (Territory.spans_release.1 hT₁)
    obtain ⟨hkb, hbound⟩ := hb.guarded hL hl₁ hT₂
    obtain ⟨hlimit, -⟩ := (hT₃.cons _).taken ht (hb.books hL hl₁)
    have hv := hT.scalar hx
    have hcells : v.cells = limit.cells := congrArg Width.cells hw.symm
    have hin := ih hst (hL.limit hf hb ht hl) (hT₄.cons _)
    have htest : ∀ rel n yes no, T.Keeps ((Piece.test yes no
        (Code.relationTest rel v limit n)).map Piece.plain) := fun rel n yes no =>
      keeps_test fun y z => (Territory.plain_relationTest rel n y z hv hlimit hcells.le).keeps
    have hadvance := (Territory.plain_advanceCounter down hv).keeps
    simp only [Piece.forLoop, List.map_append, List.map_cons, List.map_nil, Piece.map_plain_ofLines]
    refine .append ?_ (.append ?_ (hfree hlimit))
    · exact hkf.append ((Territory.plain_resize hstart hv).keeps.append ((hfree hstart).append
        (hkb.append ((Territory.plain_resize hbound hlimit).keeps.append (hfree hbound)))))
    · exact (hmark _).append ((htest ..).append ((hmark _).append (hin.append ((htest ..).append
        ((hmark _).append (hadvance.append ((hgoto _).append (hmark _))))))))
  | step hx =>
    rw [Piece.map_plain_ofLines]
    exact (Territory.plain_stepOp _ (hT.scalar hx)).keeps
  | output hv =>
    rw [Piece.map_plain_ofLines]
    obtain ⟨hk, hv⟩ := hv.guarded hL hl (Territory.spans_release.1 hT)
    exact hk.append ((Territory.plain_output _ hv).keeps.append (hfree hv))
  | input hx =>
    rw [Piece.map_plain_ofLines]
    exact (Territory.plain_input _ (hT.scalar hx)).keeps

end Stmt.Coded

/-! ### Blocks -/

/-- The variables given out. -/
def Allocator.territory (a : Allocator) : Territory := ⟨(· ∈ a.vars.toList), (· ∈ a.arrays.toList)⟩

/-- The territory has all variables given out. -/
structure Territory.Covers (T : Territory) (a : Allocator) : Prop where
  scalar : ∀ v ∈ a.vars.toList, T.scalar v
  array : ∀ r ∈ a.arrays.toList, T.array r

theorem Territory.Covers.before {a a' : Allocator} (h : T.Covers a') (hg : a.Grows a') :
    T.Covers a := ⟨fun v hv => h.scalar v (hg.vars hv), fun r hr => h.array r (hg.arrays hr)⟩

/-- It has the names in scope and the temporaries then. -/
theorem Outline.Housed.spans {o : Outline} (h : o.Housed) (hT : T.Covers o.stock.memory) :
    T.Spans o.scope o.stock.memory vs where
  temporary := fun v hv _ => hT.scalar v (List.mem_filter.1 hv).1
  scalar := fun hx => hT.scalar _ (h.scalar _ (Scope.mem_of_find? hx).1)
  array := fun hx =>
    have hr := h.array _ (Scope.mem_of_find? hx).1
    ⟨hT.array _ hr, (h.bounds.array _ hr).1⟩

/-- Calls get their lines. -/
theorem Territory.Guards.expand {code : List Piece} {selector : String → Var}
    {returns : String → List String} {bank bank' : Nat}
    (h : T.Guards bank (code.map Piece.plain) bank') (hfinish : ∀ p, .finish p ∉ code)
    (hcall : ∀ p ret, .call p ret ∈ code → T.scalar (selector p)) :
    T.Guards bank (code.flatMap (Piece.expand selector returns)) bank' := by
  induction code generalizing bank with
  | nil => exact h
  | cons piece code ih =>
    obtain ⟨hallows, hrest⟩ := h
    have htail := ih hrest (fun p hp => hfinish p (.tail _ hp))
      fun p ret hp => hcall p ret (.tail _ hp)
    rw [List.flatMap_cons, guards_append]
    cases piece with
    | line l => exact ⟨_, ⟨hallows, rfl⟩, htail⟩
    | call p ret =>
      -- A jump stands where bank 0 is selected.
      obtain rfl : bank = 0 := hallows
      refine ⟨0, ?_, htail⟩
      rw [Piece.expand]
      refine Keeps.append ?_ (Plain.keeps (by simp))
      split
      · exact (plain_selectCall _ (hcall p ret (.head _))).keeps
      · exact .nil
    | finish p => exact absurd (.head _) (hfinish p)

theorem Block.Coded.guarded {label name : String} {o o' : Outline} {b : Block} {code code' : List Piece}
    (h : Block.Coded label name o b code o') (hb : b.asmFree = true) (hfit : b.arraysFit = true)
    (ho : o.Sound code') (hl : o.Lends []) (hh : o.Housed) (hT : T.Covers o'.stock.memory)
    {selector : String → Var} (hs : ∀ q ∈ o'.headings, T.scalar (selector q.name))
    (returns : String → List String) :
    T.Keeps (code.flatMap (Piece.expand selector returns)) := by
  induction h generalizing code' with
  | @code label name o st code s' h =>
    have hkeeps := h.guarded hb hl.ledger hl.memory ((Outline.housed_invariant.statement hh h).spans hT)
    refine Territory.Keeps.append (Territory.Plain.keeps (by simp [Piece.expand]))
      (hkeeps.expand h.not_finish fun p ret hp => ?_)
    obtain ⟨q, hq, rfl⟩ := List.mem_map.1 (ho.known (h.visible_of_call hp))
    exact hs q hq
  | scalar hd hsc _ ih =>
    exact ih hb (Bool.and_eq_true_iff.1 hfit).2 (ho.declare hsc)
      (Outline.lends_invariant.scalar hl hd hsc) (Outline.housed_invariant.scalar hh hd hsc) hT hs
  | array hd hsc _ ih =>
    obtain ⟨hlen, hrest⟩ := Bool.and_eq_true_iff.1 hfit
    have hlen' := of_decide_eq_true hlen
    exact ih hb hrest (ho.declare hsc) (Outline.lends_invariant.array hl hd hlen' hsc)
      (Outline.housed_invariant.array hh hd hlen' hsc) hT hs
  | @procedure _ _ o o₁ o₂ p _ _ code₁ code₂ sel memory sc hn hsc hd hbody hr ihb ihr =>
    obtain ⟨hb₁, hb₂⟩ := Bool.and_eq_true_iff.1 hb
    obtain ⟨hfit₁, hfit₂⟩ := Bool.and_eq_true_iff.1 hfit
    have hopen := ho.openBody memory (q := ⟨p.text, sel, p.pos⟩) hn hsc
    have hl₁ := Outline.lends_invariant.openBody hl hn hsc hd
    have hh₁ := Outline.housed_invariant.openBody hh hn hsc hd
    have hl₂ := Outline.lends_invariant.leave (hbody.keeps Outline.lends_invariant hfit₁ hl₁)
    have hh₂ := Outline.housed_invariant.leave (hbody.keeps Outline.housed_invariant hfit₁ hh₁)
    have hq : ⟨p.text, sel, p.pos⟩ ∈ o₁.headings :=
      hbody.headings_prefix.subset (by simp [Outline.openBody])
    have hsound := (hbody.sound hopen).closeBody (List.mem_map_of_mem hq)
    have hT₁ : T.Covers o₁.stock.memory :=
      hT.before (hr.keeps (Outline.grows_invariant _) hfit₂ (.refl _))
    have hs₁ : ∀ q ∈ o₁.headings, T.scalar (selector q.name) := fun q hq =>
      hs q (hr.headings_prefix.subset hq)
    rw [List.flatMap_append, List.flatMap_cons, List.flatMap_cons]
    refine (ihb hb₁ hfit₁ hopen hl₁ hh₁ hT₁ hs₁).append (.append ?_ (.append ?_ ?_))
    · rw [Piece.expand]
      split
      · exact Territory.Plain.keeps (by simp)
      · exact (Territory.plain_returnDispatch _ (hs₁ _ hq)).keeps
    · exact Territory.Plain.keeps (by simp [Piece.expand])
    · exact ihr hb₂ hfit₂ hsound hl₂ hh₂ hT hs

/-- The code of a program keeps to the variables given out for it. -/
theorem Program.Coded.guarded {p : Program} {code : List Piece} {o : Outline} (h : p.Coded code o)
    (hfit : p.block.arraysFit = true) :
    o.stock.memory.territory.Keeps (o.lines (pieces code)) := by
  have hcovers : o.stock.memory.territory.Covers o.stock.memory := ⟨fun _ h => h, fun _ h => h⟩
  have hhoused := h.block.keeps Outline.housed_invariant hfit Outline.housed_start
  have hdistinct := (h.block.sound start_sound).distinct
  have hselector : ∀ q ∈ o.headings, o.stock.memory.territory.scalar (o.selector q.name) := by
    intro q hq
    rw [Outline.selector_eq hdistinct hq]
    exact hhoused.selector q hq
  rw [Outline.lines, pieces, List.flatMap_append]
  refine .append ?_ (h.block.guarded h.asmFree hfit start_sound Outline.lends_start
    Outline.housed_start hcovers hselector _)
  have hprologue : ∀ returns, (Piece.ofLines Code.prologue).flatMap
      (Piece.expand o.selector returns) = Code.prologue := fun returns => rfl
  rw [hprologue]
  exact Territory.Plain.keeps (by simp [Code.prologue]; exact ⟨trivial, rfl⟩)

end NibblePascal
