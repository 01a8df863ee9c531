import NibblePascal.Proofs.Assembly.Frugal
import NibblePascal.Proofs.Generation.Guarded

/-!
# Generated code is frugal

The code of a tree uses what it loads, and it releases a temporary only after something that has
read it: a conversion, an operator, an access to an element, a test or an output.  What is done
with the temporary stores into variables that lie apart from it.
-/

namespace NibblePascal

variable {room : Nat → Prop} {sc : Scope} {s s' : Stock} {vs : List Var} {a b a' b' v v' res : Var}
  {lines : List Line}

/-! ### Operands -/

theorem store_notMem_freeLines (addr : Nat) (v : Var) : Code.store addr ∉ freeLines v := by
  unfold freeLines
  split <;> simp [Code.store]

namespace Frugal

theorem free (h : Frugal lines) (hread : v.temp = true → LastRead v.addr lines) :
    Frugal (lines ++ freeLines v) := by
  unfold freeLines
  split
  case isTrue ht => exact h.release (hread ht)
  case isFalse => rwa [List.append_nil]

theorem free_two (h : Frugal lines) (ha : LastRead a.addr lines) (hb : LastRead b.addr lines) :
    Frugal (lines ++ (freeLines a ++ freeLines b)) := by
  rw [← List.append_assoc]
  exact (h.free fun _ => ha).free fun _ => hb.append (store_notMem_freeLines _ _)

end Frugal

theorem Converted.frugal {w : Width} (h : Converted s v w lines v' s')
    (hw : Workspace room s (v :: vs)) : Frugal lines ∧ v'.width = w := by
  cases h with
  | same heq => exact ⟨.nil, heq⟩
  | resized _ ht =>
    obtain ⟨hw', hwidth, htemp, -⟩ := hw.take ht
    refine ⟨Code.neat_resize.frugal.free fun _ => ?_, hwidth⟩
    exact Code.lastRead_resize (hw'.apart_head htemp (.head _)).symm

/-- Matched operands have one width. -/
theorem Matched.frugal (h : Matched s a b lines a' b' s') (hw : Workspace room s (b :: a :: vs)) :
    Frugal lines ∧ b'.width = a'.width := by
  cases h with
  | same heq => exact ⟨.nil, heq.symm⟩
  | left _ hc => exact (hc.frugal hw.swap).imp_right .symm
  | right _ hc => exact hc.frugal hw

/-- The cells other than the first ones of two operands. -/
def Spares (a b : Var) (k : Nat) : Prop := k ≠ a.addr ∧ k ≠ b.addr

theorem inCells_spares (ha : v.Apart a) (hb : v.Apart b) : v.InCells (Spares a b) := by
  intro k hk
  exact ⟨fun h => ha.symm.not_covers (h ▸ hk), fun h => hb.symm.not_covers (h ▸ hk)⟩

theorem Neat.frugal_of_spares (h : Neat lines) (hwrites : WritesIn (Spares a b) lines)
    (hload : Code.load a.addr ∈ lines ∧ Code.load b.addr ∈ lines) :
    Frugal lines ∧ LastRead a.addr lines ∧ LastRead b.addr lines :=
  ⟨h.frugal, .of_mem hload.1 (hwrites.store_notMem fun h => h.1 rfl),
    .of_mem hload.2 (hwrites.store_notMem fun h => h.2 rfl)⟩

/-- An operator reads its operands, which lie apart from its result and its temporaries. -/
theorem Operated.frugal {op : BinaryOp} (h : Operated s a b res op lines s')
    (hw : Workspace room s (res :: b :: a :: vs)) (htemp : res.temp = true)
    (hb : b.width = a.width) (hres : res.width = a.width) :
    Frugal lines ∧ LastRead a.addr lines ∧ LastRead b.addr lines := by
  have hcells {x y : Var} (h : x.width = y.width) : x.cells = y.cells := congrArg Width.cells h
  have hspares := inCells_spares (hw.apart_head htemp (u := a) (by simp))
    (hw.apart_head htemp (u := b) (by simp))
  -- What is taken on the way lies apart from all that is held.
  have htaken {u : Var} {us : List Var} {s₁ : Stock} (hw : Workspace room s₁ (u :: us))
      (htemp : u.temp = true) (ha : a ∈ us) (hb : b ∈ us) : u.InCells (Spares a b) :=
    inCells_spares (hw.apart_head htemp ha) (hw.apart_head htemp hb)
  cases h with
  | @combine op alu =>
    exact (Code.neat_combine alu).frugal_of_spares
      (Code.writesIn_combine alu hspares (hcells hres).ge) (Code.load_mem_combine alu)
  | multiply hu hw' =>
    obtain ⟨hw₁, hwu, htu, -⟩ := hw.take hu
    obtain ⟨hw₂, hww, htw, -⟩ := hw₁.take hw'
    refine ((neat_comment _).2 (Code.neat_product _)).frugal_of_spares
      (writesIn_cons.2 ⟨Line.writesIn_comment _, Code.writesIn_product _ hspares
        (htaken hw₁ htu (by simp) (by simp)) (htaken hw₂ htw (by simp) (by simp))
        (hcells hwu.symm) (hcells (hb.trans hww.symm))⟩) ?_
    exact Code.load_mem_product.imp (List.mem_cons_of_mem _) (List.mem_cons_of_mem _)
  | divide remainder hu hw' =>
    obtain ⟨hw₁, hwu, htu, -⟩ := hw.take hu
    obtain ⟨hw₂, hww, htw, -⟩ := hw₁.take hw'
    refine ((neat_comment _).2 (Code.neat_quotient remainder _)).frugal_of_spares
      (writesIn_cons.2 ⟨Line.writesIn_comment _, Code.writesIn_quotient remainder _ hspares
        (htaken hw₁ htu (by simp) (by simp)) (htaken hw₂ htw (by simp) (by simp))
        (hcells hwu.symm) (hcells (hb.trans hww.symm)) (hcells (hwu.trans hres.symm))⟩) ?_
    exact (Code.load_mem_quotient remainder).imp (List.mem_cons_of_mem _) (List.mem_cons_of_mem _)

/-! ### Trees -/

/-- The code of an expression is frugal where the names in scope lie outside the room for
temporaries. -/
theorem Expr.Coded.frugal {e : Expr} (h : Expr.Coded sc s e lines v s')
    (hsc : ∀ {x v}, sc.find? x = some (.scalar v) → v.Outside room)
    (hw : Workspace room s vs) : Frugal lines := by
  have hL := Workspace.ledger hsc
  induction h generalizing vs with
  | scalar => exact .nil
  | literal => exact (Code.neat_constant _).frugal
  | negLiteral => exact (Code.neat_constant _).frugal
  | element _ hi hr ho ih =>
    have hw₁ := hi.books hL (hw.locate _)
    obtain ⟨hw₂, hwr, htr, -⟩ := hw₁.take hr
    obtain ⟨hw₃, hwo, hto, -⟩ := hw₂.take ho
    refine (ih (hw.locate _)).append (Code.neat_readElement.frugal.free fun _ => ?_)
    exact Code.lastRead_readElement (hw₂.apart_head htr (.head _)).symm hwr.symm
      (hw₃.apart_head hto (by simp)).symm hwo
  | halfNibble => exact .nil
  | half => exact (Code.neat_extract _).frugal
  | paren _ ih => exact ih hw
  | negate h hc ht ih =>
    have hw₁ := h.books hL hw
    have hw₂ := hc.books hL hw₁
    obtain ⟨hw₃, hwr, htr, -⟩ := hw₂.take ht
    refine (ih hw).append ((hc.frugal hw₁).1.append (Code.neat_clear.frugal.append ?_))
    refine (Code.neat_combine .sub).frugal.free fun _ => .of_mem (Code.load_mem_combine .sub).2 ?_
    refine (Code.writesIn_combine .sub (Var.inCells_covers _) le_rfl).store_notMem ?_
    exact (hw₃.apart_head htr (.head _)).symm.not_covers
  | binary ha hb hm ht ho iha ihb =>
    have hw₁ := ha.books hL hw
    have hw₂ := hb.books hL hw₁
    have hw₃ := hm.books hL hw₂
    obtain ⟨hw₄, hwr, htr, -⟩ := hw₃.take ht
    obtain ⟨hmatched, hwidth⟩ := hm.frugal hw₂
    obtain ⟨hfrugal, hreada, hreadb⟩ := ho.frugal hw₄ htr hwidth hwr
    exact (iha hw).append ((ihb hw₁).append (hmatched.append (hfrugal.free_two hreada hreadb)))

namespace Cond.Coded

open Code (closeTest_append closeTest_map_line)

theorem frugal_continued {yes no yes' no' next : String} {test : List TestLine}
    (h : ∀ yes no, Frugal (Code.closeTest yes no test)) :
    Frugal (Code.closeTest yes no (Code.continued yes' no' next test)) := by
  rw [Code.continued, closeTest_map_line]
  exact (h yes' no').append (Neat.frugal (by simp))

theorem frugal_merged {yes no yes' no' : String} {test : List TestLine}
    (h : ∀ yes no, Frugal (Code.closeTest yes no test)) :
    Frugal (Code.closeTest yes no (Code.merged yes' no' test)) := by
  rw [Code.merged, closeTest_append, closeTest_map_line]
  exact (h yes' no').append (Neat.frugal (by simp [Code.closeTest]))

/-- The test of a condition is frugal wherever its exits lead. -/
theorem frugal {chain : Option Chain} {c : Cond} {test : List TestLine}
    (h : Cond.Coded sc chain s c test s')
    (hsc : ∀ {x v}, sc.find? x = some (.scalar v) → v.Outside room) (hw : Workspace room s vs)
    (hchain : ∀ k ∈ chain, ∀ yes no, Frugal (Code.closeTest yes no k.test)) (yes no : String) :
    Frugal (Code.closeTest yes no test) := by
  have hL := Workspace.ledger hsc
  induction h generalizing vs yes no with
  | compare ha hb hm =>
    have hw₁ := ha.books hL hw
    have hw₂ := hb.books hL hw₁
    obtain ⟨hreada, hreadb⟩ := Code.lastRead_relationTest _
    rw [closeTest_append, closeTest_append, closeTest_map_line, closeTest_map_line]
    exact ((ha.frugal hsc hw).append ((hb.frugal hsc hw₁).append (hm.frugal hw₂).1)).append
      ((Code.neat_relationTest _ _).frugal.free_two hreada hreadb)
  | nonzero h =>
    rw [closeTest_append, closeTest_append, closeTest_map_line, closeTest_map_line]
    exact (h.frugal hsc hw).append
      (Code.neat_nonzeroTest.frugal.free fun _ => Code.lastRead_nonzeroTest)
  | odd h =>
    rw [closeTest_append, closeTest_append, closeTest_map_line, closeTest_map_line]
    exact (h.frugal hsc hw).append (Code.neat_oddTest.frugal.free fun _ => Code.lastRead_oddTest)
  | group _ ih => exact ih hw nofun yes no
  | and hcl _ ihl ihr =>
    rw [closeTest_append]
    exact (frugal_continued (ihl hw nofun)).append
      (frugal_merged (ihr ((hcl.books hL hw).skip 3) nofun))
  | or hcl _ ihl ihr =>
    refine ihr ((hcl.books hL hw).skip 2) ?_ yes no
    rintro k ⟨⟩
    exact ihl hw nofun
  | next hcl _ ihl ihr =>
    refine ihr (hcl.books hL (hw.skip 1)) ?_ yes no
    rintro k ⟨⟩ yes no
    rw [closeTest_append]
    exact (frugal_continued (hchain _ rfl)).append (ihl (hw.skip 1) nofun yes no)
  | last _ _ ih =>
    rw [closeTest_append]
    exact (frugal_continued (hchain _ rfl)).append (frugal_merged (ih (hw.skip 1) nofun))

end Cond.Coded

/-! ### Statements -/

theorem Code.neat_stepOp (op : StepOp) : Neat (op.code v) := by
  cases op <;> simp [StepOp.code, increment, decrement]

theorem Code.neat_advanceCounter (down : Bool) : Neat (advanceCounter down v) := by
  cases down <;> simp [advanceCounter, increment, decrement]

theorem Code.store_notMem_advanceCounter {addr : Nat} (h : ¬ v.Covers addr) (down : Bool) :
    store addr ∉ advanceCounter down v := by
  cases down <;> exact (writesIn_step _ v.inCells_covers).store_notMem h

namespace Stmt.Coded

variable {selector : String → Var} {returns : String → List String}

theorem flatMap_expand_ofLines (lines : List Line) :
    (Piece.ofLines lines).flatMap (Piece.expand selector returns) = lines := by
  rw [Piece.ofLines, List.flatMap_map]
  exact List.flatMap_singleton' lines

/-- The code of a statement is frugal, the lines of its calls included. -/
theorem frugal {st : Stmt} {code : List Piece} (h : Stmt.Coded sc s st code s')
    (hst : st.asmFree = true) (hsc : ∀ {x v}, sc.find? x = some (.scalar v) → v.Outside room)
    (hw : Workspace room s vs) : Frugal (code.flatMap (Piece.expand selector returns)) := by
  have hL := Workspace.ledger hsc
  have hmark (n : Nat) : Frugal (Piece.expand selector returns (.mark n)) :=
    Neat.frugal (by simp [Piece.mark, Piece.expand])
  have hgoto (n : Nat) : Frugal (Piece.expand selector returns (.goto n)) :=
    Neat.frugal (by simp [Piece.goto, Piece.expand])
  -- The condition of a statement continues no chain.
  have hcond {s s' : Stock} {vs : List Var} {c : Cond} {test : List TestLine}
      (h : Cond.Coded sc none s c test s') (hw : Workspace room s vs) (yes no : Nat) :
      Frugal ((Piece.test yes no test).flatMap (Piece.expand selector returns)) := by
    rw [Piece.test, flatMap_expand_ofLines]
    exact h.frugal hsc hw (by simp) _ _
  induction h generalizing vs with
  | skip => exact .nil
  | nop => exact Neat.frugal (by simp [Piece.expand])
  | seq hf _ ihf ihr =>
    obtain ⟨hf', hr'⟩ := Bool.and_eq_true_iff.1 hst
    rw [List.flatMap_append]
    exact (ihf hf' hw).append (ihr hr' (hf.books hL hw))
  | block _ ih => exact ih hst hw
  | assign hx hv =>
    rw [flatMap_expand_ofLines]
    refine (hv.frugal hsc hw).append (Code.neat_resize.frugal.free fun ht => ?_)
    exact Code.lastRead_resize ((hv.books hL hw).apart_outside (.head _) ht (hsc hx))
  | setElement hx hi hv hc ho =>
    have hw₁ := hi.books hL hw
    have hw₂ := hv.books hL hw₁
    have hw₃ := hc.books hL hw₂
    obtain ⟨hw₄, hwo, hto, -⟩ := hw₃.take ho
    have hoffset {u : Var} (hu : u ∈ _) := (hw₄.apart_head hto hu).symm.not_covers
    obtain ⟨hloadi, hloadv⟩ := Code.load_mem_writeElement
    rw [flatMap_expand_ofLines]
    refine (hi.frugal hsc hw).append ((hv.frugal hsc hw₁).append ((hc.frugal hw₂).1.append
      (Code.neat_writeElement.frugal.free_two (.of_mem hloadi ?_) (.of_mem hloadv ?_))))
    · exact Code.store_notMem_writeElement (hoffset (by simp)) hwo
    · exact Code.store_notMem_writeElement (hoffset (by simp)) hwo
  | fillList =>
    rw [flatMap_expand_ofLines]
    exact (Code.neat_fillArray _).frugal
  | fillText =>
    rw [flatMap_expand_ofLines]
    exact (Code.neat_fillArray _).frugal
  | copyArray =>
    rw [flatMap_expand_ofLines]
    exact ((neat_comment _).2 Code.neat_copyArray).frugal
  | call =>
    rw [List.flatMap_cons, List.flatMap_singleton, Piece.expand]
    refine (Neat.frugal ?_).append (hmark _)
    split
    · exact (neat_append (Code.neat_selectCall _)).2 (by simp)
    · simp
  | asm => cases hst
  | ifThen hc _ ih =>
    have hbody := ih hst (hc.books hL (hw.skip 3))
    simp only [Piece.ifThen, List.flatMap_append, List.flatMap_cons, List.flatMap_nil,
      List.append_nil]
    exact (hcond hc (hw.skip 3) _ _).append ((hmark _).append (hbody.append (hmark _)))
  | ifElse hc hy _ ihy ihn =>
    obtain ⟨hy', hn'⟩ := Bool.and_eq_true_iff.1 hst
    have hw₁ := hc.books hL (hw.skip 3)
    have hyes := ihy hy' hw₁
    have hno := ihn hn' (hy.books hL hw₁)
    simp only [Piece.ifElse, List.flatMap_append, List.flatMap_cons, List.flatMap_nil,
      List.append_nil]
    exact (hcond hc (hw.skip 3) _ _).append ((hmark _).append (hyes.append ((hgoto _).append
      ((hmark _).append (hno.append (hmark _))))))
  | whileDo hc _ ih =>
    have hbody := ih hst (hc.books hL (hw.skip 3))
    simp only [Piece.whileDo, List.flatMap_append, List.flatMap_cons, List.flatMap_nil,
      List.append_nil]
    exact (hmark _).append ((hcond hc (hw.skip 3) _ _).append ((hmark _).append (hbody.append
      ((hgoto _).append (hmark _)))))
  | repeatUntil hb hc ih =>
    have hbody := ih hst (hw.skip 2)
    simp only [Piece.repeatUntil, List.flatMap_append, List.flatMap_cons, List.flatMap_nil,
      List.append_nil]
    exact (hmark _).append (hbody.append ((hcond hc (hb.books hL (hw.skip 2)) _ _).append
      (hmark _)))
  | @forDo s s₁ s₂ s₃ s₄ x down first last body v start bound limit lines₁ lines₂ code hx hf hb ht
      hwidth hbody ih =>
    have hw₁ := hf.books hL hw
    have hw₂ := hb.books hL hw₁.release
    obtain ⟨hw₃, -, htl, -⟩ := hw₂.take ht
    have hstart : Frugal (Code.resize start v ++ freeLines start) :=
      Code.neat_resize.frugal.free fun ht =>
        Code.lastRead_resize (hw₁.apart_outside (.head _) ht (hsc hx))
    have hbound : Frugal (Code.resize bound limit ++ freeLines bound) :=
      Code.neat_resize.frugal.free fun _ =>
        Code.lastRead_resize (hw₃.apart_head htl (.head _)).symm
    have htest (rel : Relation) (n yes no : Nat) : Frugal ((Piece.test yes no
        (Code.relationTest rel v limit n)).flatMap (Piece.expand selector returns)) := by
      rw [Piece.test, flatMap_expand_ofLines]
      exact (Code.neat_relationTest rel n).frugal
    have hin := ih hst (((hL.limit hf hb ht hw).skip 4).skip _)
    simp only [Piece.forLoop, List.flatMap_append, List.flatMap_cons, List.flatMap_nil,
      flatMap_expand_ofLines, List.append_nil]
    rw [← List.append_assoc (Code.resize start v)]
    refine ((hf.frugal hsc hw).append (hstart.append ((hb.frugal hsc hw₁.release).append
      hbound))).append (Frugal.free ?_ fun _ => ?_)
    · exact (hmark _).append ((htest ..).append ((hmark _).append (hin.append ((htest ..).append
        ((hmark _).append ((Code.neat_advanceCounter down).frugal.append
          ((hgoto _).append (hmark _))))))))
    · -- The last test reads the limit, and the step behind it moves the counter only.
      have hstore := Code.store_notMem_advanceCounter
        (hw₃.apart_outside (.head _) htl (hsc hx)).not_covers down
      refine (LastRead.append ?_ ?_ |>.prepend _ |>.prepend _ |>.prepend _ |>.prepend _)
      · rw [Piece.test, flatMap_expand_ofLines]
        exact (Code.lastRead_relationTest .eq).2
      · simpa [Piece.mark, Piece.goto, Piece.expand, Code.store, Code.jump, Code.label] using hstore
  | step =>
    rw [flatMap_expand_ofLines]
    exact (Code.neat_stepOp _).frugal
  | output hv =>
    rw [flatMap_expand_ofLines]
    exact (hv.frugal hsc hw).append
      ((Code.neat_output _).frugal.free fun _ => Code.lastRead_output _)
  | input =>
    rw [flatMap_expand_ofLines]
    exact (Code.neat_input _).frugal

end Stmt.Coded

end NibblePascal
