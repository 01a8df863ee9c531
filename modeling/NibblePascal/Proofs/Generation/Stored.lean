import NibblePascal.Proofs.Assembly.Stored
import NibblePascal.Proofs.Generation.Guarded

/-!
# Generated code writes to its own temporaries

The code of an expression or of a condition writes to temporaries that it takes itself.  So the
cells that it writes to belong to temporaries that are not in use where it begins, the pooled ones
and those that are not made yet: `Expr.Coded.writesIn` and `Cond.Coded.writesIn`.
-/

namespace NibblePascal

namespace Allocator

variable {a a' : Allocator} {u v : Var} {vs : List Var} {P : Nat → Prop} {addr : Nat}

/-- The temporaries made so far have their cells in `P`, those among `vs` apart. -/
def Lendable (a : Allocator) (vs : List Var) (P : Nat → Prop) : Prop :=
  ∀ v ∈ a.temporaries, v ∉ vs → v.InCells P

/-- What holds of all temporaries later holds of those made so far. -/
theorem Lendable.before (h : a'.Lendable vs P) (hg : a.Grows a') : a.Lendable vs P :=
  fun v hv hvs => h v (hg.temporaries hv) hvs

theorem Lendable.cons (h : a.Lendable vs P) (u : Var) : a.Lendable (u :: vs) P :=
  fun v hv hvs => h v hv fun hmem => hvs (.tail _ hmem)

/-- A cell of a temporary that is made by the time of `later`, and that was in a pool or not made
yet at the time of `a`. -/
def Borrowed (a later : Allocator) (addr : Nat) : Prop :=
  ∃ v ∈ later.temporaries, (v ∈ a.pools.all ∨ v ∉ a.temporaries) ∧ v.Covers addr

theorem Lends.lendable_borrowed (h : a.Lends vs) (later : Allocator) :
    later.Lendable vs (a.Borrowed later) := by
  intro v hv hvs addr hc
  refine ⟨v, hv, ?_, hc⟩
  by_contra hnot
  obtain ⟨hpool, hmade⟩ := not_or.1 hnot
  have hout : v ∈ a.outstanding := List.mem_filter.2 ⟨not_not.1 hmade, by simpa using hpool⟩
  exact hvs (h.mem_outstanding.1 hout).1

end Allocator

variable {sc : Scope} {s s' : Stock} {vs : List Var} {P : Nat → Prop} {lines : List Line}
  {u v v' w x y x' y' res : Var}

/-- A temporary that is taken is not in use. -/
theorem Stock.Takes.inCells {width : Width} (ht : s.Takes width v s') (hl : s.memory.Lends vs)
    (hP : s'.memory.Lendable vs P) : v.InCells P ∧ v.width = width := by
  obtain ⟨memory, ht, rfl⟩ := ht
  obtain ⟨hmem, hwidth⟩ := hl.mem_of_take ht
  exact ⟨hP v hmem (hl.notMem_of_take ht), hwidth⟩

theorem Stock.Takes.lendable {width : Width} (ht : s.Takes width v s')
    (hP : s'.memory.Lendable vs P) : s.memory.Lendable vs P := by
  obtain ⟨memory, ht, rfl⟩ := ht
  exact hP.before ((Allocator.Grows.refl _).temp ht)

@[simp] theorem lendable_release : (s.release v).memory.Lendable vs P ↔ s.memory.Lendable vs P := by
  have h : (s.release v).memory.temporaries = s.memory.temporaries := by
    unfold Stock.release Allocator.release
    split <;> rfl
  simp only [Allocator.Lendable, h]

theorem lendable_skip {n : Nat} :
    (s.skip n).memory.Lendable vs P ↔ s.memory.Lendable vs P := Iff.rfl

theorem writesIn_freeLines (v : Var) : WritesIn P (freeLines v) := by
  unfold freeLines
  split <;> simp

/-! ### Operands -/

theorem Converted.writesIn {width : Width} (h : Converted s v width lines v' s')
    (hl : s.memory.Lends vs) (hP : s'.memory.Lendable vs P) : WritesIn P lines := by
  cases h with
  | same => exact writesIn_nil
  | resized _ ht =>
    obtain ⟨hres, -⟩ := ht.inCells hl (lendable_release.1 hP)
    exact writesIn_append.2 ⟨Code.writesIn_resize hres, writesIn_freeLines v⟩

theorem Matched.writesIn (h : Matched s x y lines x' y' s') (hl : s.memory.Lends vs)
    (hP : s'.memory.Lendable vs P) : WritesIn P lines := by
  cases h with
  | same => exact writesIn_nil
  | left _ hc | right _ hc => exact hc.writesIn hl hP

/-- Matched operands have one width. -/
theorem Matched.width_eq (h : Matched s x y lines x' y' s') (hl : s.memory.Lends vs) :
    x'.width = y'.width := by
  have hconv : ∀ {v v' : Var} {width : Width} {lines : List Line} {s' : Stock},
      Converted s v width lines v' s' → v'.width = width := by
    rintro v v' width lines s' (hw | ⟨-, memory, ht, -⟩)
    · assumption
    · exact (hl.mem_of_take ht).2
  cases h with
  | same hw => exact hw
  | left _ hc => exact hconv hc
  | right _ hc => exact (hconv hc).symm

theorem Operated.writesIn {op : BinaryOp} (h : Operated s x y res op lines s')
    (hL : Ledger sc fun s vs => s.memory.Lends vs) (hl : s.memory.Lends vs)
    (hP : s'.memory.Lendable vs P) (hres : res.InCells P) (hxy : x.width = y.width)
    (hxr : x.width = res.width) : WritesIn P lines := by
  have hcells : ∀ {u v : Var}, u.width = v.width → u.cells = v.cells := congrArg Width.cells
  cases h with
  | combine => exact Code.writesIn_combine _ hres (hcells hxr).le
  | multiply hu hw =>
    simp only [lendable_release, lendable_skip] at hP
    obtain ⟨hu', hwu⟩ := hu.inCells hl (hw.lendable hP)
    obtain ⟨hw', hww⟩ := hw.inCells (hL.take hu hl) (hP.cons _)
    refine writesIn_cons.2 ⟨Line.writesIn_comment _, ?_⟩
    exact Code.writesIn_product _ hres hu' hw' (hcells hwu.symm) (hcells (hxy.symm.trans hww.symm))
  | divide remainder hu hw =>
    simp only [lendable_release, lendable_skip] at hP
    obtain ⟨hu', hwu⟩ := hu.inCells hl (hw.lendable hP)
    obtain ⟨hw', hww⟩ := hw.inCells (hL.take hu hl) (hP.cons _)
    refine writesIn_cons.2 ⟨Line.writesIn_comment _, ?_⟩
    exact Code.writesIn_quotient remainder _ hres hu' hw' (hcells hwu.symm)
      (hcells (hxy.symm.trans hww.symm)) (hcells (hwu.trans hxr))

/-! ### Trees -/

/-- The code of an expression writes to temporaries that were not in use. -/
theorem Expr.Coded.writesIn {e : Expr} (h : Expr.Coded sc s e lines v s')
    (hL : Ledger sc fun s vs => s.memory.Lends vs) (hl : s.memory.Lends vs)
    (hP : s'.memory.Lendable vs P) : WritesIn P lines := by
  induction h generalizing vs with
  | scalar => exact writesIn_nil
  | literal ht | negLiteral ht => exact Code.writesIn_constant _ (ht.inCells (hl.locate _) hP).1
  | element _ hi htr hto ih =>
    simp only [lendable_release] at hP
    have hP₂ := hto.lendable hP
    have hl₁ := hi.books hL (hl.locate _)
    obtain ⟨hres, hwidth⟩ := htr.inCells hl₁ (hP₂.cons _)
    obtain ⟨hoffset, hbyte⟩ := hto.inCells (hL.take htr hl₁) ((hP.cons _).cons _)
    refine writesIn_append.2 ⟨ih (hl.locate _) (htr.lendable hP₂), writesIn_append.2 ⟨?_, ?_⟩⟩
    · exact Code.writesIn_readElement hres hwidth.symm hoffset hbyte
    · exact writesIn_freeLines _
  | halfNibble => exact writesIn_nil
  | half _ _ ht => exact Code.writesIn_extract (ht.inCells (hl.locate _) hP).1
  | paren _ ih => exact ih hl hP
  | negate h hc ht ih =>
    simp only [lendable_release] at hP
    have hP₂ := ht.lendable hP
    have hP₁ := hP₂.before (hc.upholds (Allocator.Grows.ledger sc _) (.refl _))
    have hl₁ := h.books hL hl
    obtain ⟨hres, -⟩ := ht.inCells (hc.books hL hl₁) (hP.cons _)
    simp only [writesIn_append, writesIn_freeLines, and_true]
    exact ⟨ih hl hP₁, hc.writesIn hl₁ (hP₂.cons _), Code.writesIn_clearFrom 0 hres,
      Code.writesIn_combine .sub hres le_rfl⟩
  | binary ha hb hm ht ho iha ihb =>
    simp only [lendable_release] at hP
    have hP₄ := hP.before (ho.upholds (Allocator.Grows.ledger sc _) (.refl _))
    have hP₃ := ht.lendable hP₄
    have hP₂ := hP₃.before (hm.upholds (Allocator.Grows.ledger sc _) (.refl _))
    have hP₁ := hP₂.before (hb.upholds (Allocator.Grows.ledger sc _) (.refl _))
    have hl₁ := ha.books hL hl
    have hl₂ := hb.books hL hl₁
    have hl₃ := hm.books hL hl₂
    obtain ⟨hres, hwidth⟩ := ht.inCells hl₃ ((hP₄.cons _).cons _)
    simp only [writesIn_append, writesIn_freeLines, and_true]
    refine ⟨iha hl hP₁, ihb hl₁ (hP₂.cons _), hm.writesIn hl₂ ((hP₃.cons _).cons _), ?_⟩
    exact ho.writesIn hL (hL.take ht hl₃) (((hP.cons _).cons _).cons _) hres (hm.width_eq hl₂)
      hwidth.symm

namespace Cond.Coded

variable {chain : Option Chain} {c : Cond} {test : List TestLine}

theorem writesIn_continued {yes no yes' no' next : String}
    (h : ∀ yes no, WritesIn P (Code.closeTest yes no test)) :
    WritesIn P (Code.closeTest yes no (Code.continued yes' no' next test)) := by
  rw [Code.continued, Code.writesIn_closeTest_map_line]
  simpa using h yes' no'

theorem writesIn_merged {yes no yes' no' : String}
    (h : ∀ yes no, WritesIn P (Code.closeTest yes no test)) :
    WritesIn P (Code.closeTest yes no (Code.merged yes' no' test)) := by
  rw [Code.merged, Code.writesIn_closeTest_append, Code.writesIn_closeTest_map_line]
  exact ⟨h yes' no', by simp [Code.closeTest]⟩

/-- The test of a condition writes to temporaries that were not in use. -/
theorem writesIn (h : Cond.Coded sc chain s c test s')
    (hL : Ledger sc fun s vs => s.memory.Lends vs) (hl : s.memory.Lends vs)
    (hP : s'.memory.Lendable vs P)
    (hchain : ∀ k ∈ chain, ∀ yes no, WritesIn P (Code.closeTest yes no k.test)) (yes no : String) :
    WritesIn P (Code.closeTest yes no test) := by
  have hgrows : ∀ {chain : Option Chain} {s s' : Stock} {c : Cond} {test : List TestLine},
      Cond.Coded sc chain s c test s' → s'.memory.Lendable vs P → s.memory.Lendable vs P :=
    fun h hP => hP.before (h.upholds (Allocator.Grows.ledger sc _) (.refl _))
  have hnone : ∀ k ∈ (none : Option Chain), ∀ yes no, WritesIn P (Code.closeTest yes no k.test) := by
    simp
  induction h generalizing yes no with
  | compare ha hb hm =>
    simp only [lendable_release, lendable_skip] at hP
    have hP₂ := hP.before (hm.upholds (Allocator.Grows.ledger sc _) (.refl _))
    have hP₁ := hP₂.before (hb.upholds (Allocator.Grows.ledger sc _) (.refl _))
    have hl₁ := ha.books hL hl
    have hl₂ := hb.books hL hl₁
    simp only [Code.writesIn_closeTest_append, Code.writesIn_closeTest_map_line, writesIn_append,
      writesIn_freeLines, and_true]
    exact ⟨⟨ha.writesIn hL hl hP₁, hb.writesIn hL hl₁ (hP₂.cons _),
      hm.writesIn hl₂ ((hP.cons _).cons _)⟩, Code.writesIn_relationTest _ _⟩
  | nonzero h =>
    simp only [Code.writesIn_closeTest_append, Code.writesIn_closeTest_map_line, writesIn_freeLines,
      and_true]
    exact ⟨h.writesIn hL hl (lendable_release.1 hP), Code.writesIn_nonzeroTest⟩
  | odd h =>
    simp only [Code.writesIn_closeTest_append, Code.writesIn_closeTest_map_line, writesIn_freeLines,
      and_true]
    exact ⟨h.writesIn hL hl (lendable_release.1 hP), Code.writesIn_oddTest⟩
  | group _ ih => exact ih hl hP hnone yes no
  | and hcl hcr ihl ihr =>
    rw [Code.writesIn_closeTest_append]
    exact ⟨writesIn_continued (ihl hl (lendable_skip.1 (hgrows hcr hP)) hnone),
      writesIn_merged (ihr (hcl.books hL hl) hP hnone)⟩
  | or hcl hcr ihl ihr =>
    refine ihr (hcl.books hL hl) hP ?_ yes no
    rintro k ⟨⟩
    exact ihl hl (lendable_skip.1 (hgrows hcr hP)) hnone
  | next hcl hcr ihl ihr =>
    refine ihr (hcl.books hL hl) hP ?_ yes no
    rintro k ⟨⟩ yes no
    rw [Code.writesIn_closeTest_append]
    exact ⟨writesIn_continued (hchain _ rfl), ihl hl (hgrows hcr hP) hnone yes no⟩
  | last _ h ih =>
    rw [Code.writesIn_closeTest_append]
    exact ⟨writesIn_continued (hchain _ rfl), writesIn_merged (ih hl hP hnone)⟩

end Cond.Coded

end NibblePascal
