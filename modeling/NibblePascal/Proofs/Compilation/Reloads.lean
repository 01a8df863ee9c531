import NibblePascal.Proofs.Assembly.Reloads
import NibblePascal.Proofs.Compilation.Closed
import NibblePascal.Proofs.Generation.Frugal
import NibblePascal.Proofs.Simulation.Layout

/-!
# Accepted programs have no reloads

The code of a program is frugal, since its names lie outside the cells for temporaries wherever
they are in scope.  So tidying leaves no load of a cell that was stored into just before.
-/

namespace NibblePascal

/-! ### Blocks -/

theorem Block.Coded.frugal {label name : String} {o o' : Outline} {b : Block} {code : List Piece}
    (h : Block.Coded label name o b code o') (hb : b.asmFree = true) (hfit : b.arraysFit = true)
    (ho : o.Tidy) (selector : String → Var) (returns : String → List String) :
    Frugal (code.flatMap (Piece.expand selector returns)) := by
  have hI := Outline.tidy_invariant
  induction h with
  | code h =>
    rw [List.flatMap_cons]
    exact (Neat.frugal (by simp [Piece.expand])).append
      (h.frugal hb ho.ready.scalar (.of_sound ho.laid.sound))
  | scalar hd hsc _ ih => exact ih hb (Bool.and_eq_true_iff.1 hfit).2 (hI.scalar ho hd hsc)
  | array hd hsc _ ih =>
    obtain ⟨hlen, hrest⟩ := Bool.and_eq_true_iff.1 hfit
    exact ih hb hrest (hI.array ho hd (of_decide_eq_true hlen) hsc)
  | procedure hn hsc hd hbody _ ihb ihr =>
    obtain ⟨hb₁, hb₂⟩ := Bool.and_eq_true_iff.1 hb
    obtain ⟨hfit₁, hfit₂⟩ := Bool.and_eq_true_iff.1 hfit
    have hopen := hI.openBody ho hn hsc hd
    rw [List.flatMap_append, List.flatMap_cons, List.flatMap_cons]
    refine (ihb hb₁ hfit₁ hopen).append (.append ?_ (.append ?_ ?_))
    · rw [Piece.expand]
      split
      · exact Neat.frugal (by simp)
      · exact (Code.neat_returnDispatch _).frugal
    · exact Neat.frugal (by simp [Piece.expand])
    · exact ihr hb₂ hfit₂ (hI.leave (hbody.keeps hI hfit₁ hopen))

/-- The code of a program is frugal. -/
theorem Program.Coded.frugal {p : Program} {code : List Piece} {o : Outline} (h : p.Coded code o)
    (hfit : p.block.arraysFit = true) : Frugal (o.lines (pieces code)) := by
  have hprologue (returns : String → List String) : (Piece.ofLines Code.prologue).flatMap
      (Piece.expand o.selector returns) = Code.prologue := rfl
  rw [Outline.lines, pieces, List.flatMap_append, hprologue]
  exact Code.neat_prologue.frugal.append
    (h.block.frugal h.asmFree hfit Outline.tidy_start o.selector _)

/-! ### Accepted programs -/

variable {files : Files} {o : Options} {name text : String} {p : Program} {c : Compilation}

/-- In the tidied code of an accepted program without inline assembly no cell is loaded that was
stored into last, but for comments and settings of the carry in between. -/
theorem tidied_has_no_reload (h : Accepts files o name text p c) (hp : p.block.asmFree = true)
    (ho : o.optimize = true) {before after : List Line} {addr : Nat}
    (hlines : c.lines = before ++ Code.load addr :: after) :
    before.reverse.find? (!·.isTransparent) ≠ some (Code.store addr) := by
  obtain ⟨code, outline, hcode, -, htidy⟩ := h.coded hp
  rw [if_pos ho] at htidy
  have hfresh := (hcode.frugal h.arraysFit).fresh_tidy
  rw [← htidy, hlines] at hfresh
  have hreload := hfresh.not_reload
  rw [List.append_nil] at hreload
  exact beq_eq_false_iff_ne.1 hreload

/-- A sum in a temporary, and a comparison of two widths. -/
def sumText : String :=
  "var a: nibble;\n  b: byte;\nbegin\n  a := a + 1;\n  if a > b then b := a\nend.\n"

theorem tidied_has_no_reload_sum : ∃ p c, Accepts {} {} "sum" sumText p c
    ∧ p.block.asmFree = true ∧ ({} : Options).optimize = true
    ∧ ∃ before after addr, c.lines = before ++ Code.load addr :: after
      ∧ before.reverse.find? (!·.isTransparent) ≠ some (Code.store addr) := by
  have haccepted : isAccepted {} {} "sum" sumText (·.block.asmFree) = true := by decide +kernel
  have hload : (compileSource {} {} "sum" sumText).toOption.map (·.lines.any Line.isLoad)
      = some true := by decide +kernel
  obtain ⟨p, c, h, hp⟩ := exists_accepts_of_isAccepted haccepted
  rw [h.compiled] at hload
  obtain ⟨l, hl, hisLoad⟩ := List.any_eq_true.1 (Option.some.inj hload)
  obtain ⟨addr, rfl⟩ := Line.exists_of_isLoad hisLoad
  obtain ⟨before, after, hlines⟩ := List.append_of_mem hl
  exact ⟨p, c, h, hp, rfl, before, after, addr, hlines, tidied_has_no_reload h hp rfl hlines⟩

end NibblePascal
