import NibblePascal.Proofs.Compilation.Closed
import NibblePascal.Proofs.Reading.Spelled
import NibblePascal.Proofs.Simulation.Program

/-!
# What accepted programs compute

The code of an accepted source text without procedures computes what the text means: the text
spells a tree by the rules of the grammar, and the machine halts where the tree runs to an end,
with the same contents of variables and ports.
-/

namespace NibblePascal

/-! ### Trees that have code -/

section Whole

variable {sc : Scope} {s s' : Stock}

theorem Expr.Coded.isWhole {e : Expr} {lines : List Line} {v : Var}
    (h : Expr.Coded sc s e lines v s') : e.isWhole = true := by
  induction h with
  | _ => simp_all [Expr.isWhole]

theorem Cond.Coded.isWhole {chain : Option Chain} {d : Cond} {test : List TestLine}
    (h : Cond.Coded sc chain s d test s') : d.isWhole = true := by
  induction h with
  | compare ha hb => simp [Cond.isWhole, ha.isWhole, hb.isWhole]
  | nonzero he | odd he => simp [Cond.isWhole, he.isWhole]
  | _ => simp_all [Cond.isWhole]

theorem Stmt.Coded.isWhole {st : Stmt} {code : List Piece} (h : Stmt.Coded sc s st code s') :
    st.isWhole = true := by
  induction h with
  | assign _ hv | output hv => simp [Stmt.isWhole, hv.isWhole]
  | setElement _ hi hv => simp [Stmt.isWhole, hi.isWhole, hv.isWhole]
  | ifThen hc _ ih | whileDo hc _ ih => simp [Stmt.isWhole, hc.isWhole, ih]
  | ifElse hc _ _ ihy ihn => simp [Stmt.isWhole, hc.isWhole, ihy, ihn]
  | repeatUntil _ hc ih => simp [Stmt.isWhole, hc.isWhole, ih]
  | forDo _ hf hl _ _ _ ih => simp [Stmt.isWhole, hf.isWhole, hl.isWhole, ih]
  | _ => simp_all [Stmt.isWhole]

theorem Block.Coded.isWhole {label name : String} {o o' : Outline} {b : Block} {code : List Piece}
    (h : Block.Coded label name o b code o') : b.isWhole = true := by
  induction h with
  | code h => exact h.isWhole
  | scalar _ _ _ ih | array _ _ _ ih => exact ih
  | procedure _ _ _ _ _ ihb ihr => simp [Block.isWhole, ihb, ihr]

end Whole

/-! ### Ports -/

/-- The grammar has the bounds of ports. -/
theorem Stmt.Spelled.portsFit {arrays : List String} {extent : Extent} {ts : List Token} {st : Stmt}
    (h : st.Spelled arrays extent ts) (hasm : st.asmFree = true) : st.portsFit = true := by
  induction h with
  | output _ hn | input _ _ _ hn => simpa [Stmt.portsFit] using hn.2.2
  | asm => cases hasm
  | block _ _ _ ih | gap _ _ ih => exact ih hasm
  | last _ ih => exact Bool.and_eq_true_iff.2 ⟨ih (Bool.and_eq_true_iff.1 hasm).1, rfl⟩
  | more _ _ _ ihf ihr =>
    exact Bool.and_eq_true_iff.2
      ⟨ihf (Bool.and_eq_true_iff.1 hasm).1, ihr (Bool.and_eq_true_iff.1 hasm).2⟩
  | ifElse _ _ _ _ _ _ _ ihy ihn =>
    exact Bool.and_eq_true_iff.2
      ⟨ihy (Bool.and_eq_true_iff.1 hasm).1, ihn (Bool.and_eq_true_iff.1 hasm).2⟩
  | ifThen _ _ _ _ ih | whileDo _ _ _ _ ih | forDo _ _ _ _ _ _ _ _ ih => exact ih hasm
  | repeatUntil _ _ _ _ ih => exact ih hasm
  | _ => rfl

theorem Block.Spelled.exists_main {arrays : List String} {ts : List Token} {b : Block}
    (h : b.Spelled arrays ts) : ∃ arrays' ts', b.main.Spelled arrays' .single ts' := by
  induction h with
  | code h => exact ⟨_, _, h⟩
  | constants _ _ _ ih => exact ih
  | @vars arrays t ts ts' ds b ht hd hb ih =>
    have hmain : (Context.declareAll ds b).main = b.main := by
      clear hd hb ih
      induction ds with
      | nil => rfl
      | cons d ds ih => exact ih
    rwa [hmain]
  | procedure _ _ _ _ _ _ _ ih => exact ih

theorem Block.asmFree_main {b : Block} (h : b.asmFree = true) : b.main.asmFree = true := by
  induction b with
  | fault => rfl
  | code => exact h
  | declare _ _ _ _ ih => exact ih h
  | procedure _ _ _ _ _ ih => exact ih (Bool.and_eq_true_iff.1 h).2

/-! ### Accepted programs -/

section Accepted

variable {files : Files} {o : Options} {name text : String} {p : Program} {c : Compilation}

/-- An accepted text is spelled by the rules of the grammar. -/
theorem Accepts.spelled (h : Accepts files o name text p c) (hp : p.block.asmFree = true) :
    ∃ tokens lexer, (lexUnit { legacy := o.legacyKeywords, files := files } name text).run {}
      = .ok tokens lexer ∧ p.Spelled tokens := by
  obtain ⟨code, outline, hcode, -, -⟩ := h.coded hp
  have htree := h.tree
  unfold sourceTree? at htree
  split at htree
  · rename_i tokens lexer hlex
    cases htree
    exact ⟨tokens, lexer, hlex, Program.spelled_ofTokens hcode.block.isWhole hcode.close⟩
  · cases htree

theorem Accepts.portsFit (h : Accepts files o name text p c) (hp : p.block.asmFree = true) :
    p.block.main.portsFit = true := by
  obtain ⟨tokens, lexer, -, ⟨-, hb, -⟩⟩ := h.spelled hp
  obtain ⟨arrays, ts, hmain⟩ := hb.exists_main
  exact hmain.portsFit (Block.asmFree_main hp)

end Accepted

end NibblePascal
