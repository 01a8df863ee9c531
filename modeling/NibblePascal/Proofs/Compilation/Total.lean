import NibblePascal.Proofs.Assembly.Tidied
import NibblePascal.Proofs.Compilation.Accepted
import NibblePascal.Proofs.Generation.Finish
import NibblePascal.Proofs.Generation.Pointed

/-!
# Every source text has a compilation

Whatever the text and the files that it includes, compilation answers with code and a memory map,
and with a fault of the text if there is one.  None of the compiler's own checks fails: the jumps
of a finished program have their targets, and the sums and products of sixteen bits, of which the
addresses in the code and in the memory map are made, do not overflow.
-/

namespace NibblePascal

/-- No jump waits for its target where every target has a name. -/
theorem Targeted.isPending {lines : List Line} (h : Targeted lines) {l : Line} (hl : l ∈ lines) :
    l.isPending = false := by
  cases l with
  | inst i =>
    cases i with
    | jump kind target =>
      have hne : target ≠ "" := h target (List.mem_filterMap.2 ⟨_, hl, rfl⟩)
      simpa [Line.isPending, Instruction.isPending] using hne
    | _ => rfl
  | _ => rfl

theorem Targeted.of_tidied {a b : List Line} (h : Targeted b) (ht : Tidied a b) : Targeted a :=
  fun t hmem => h t ((ht.sublist.filterMap _).subset hmem)

/-- Generation of a program ends, with all jumps in place unless there is a fault.  It stays within
the bounds on its way, and a fault is at a position of the tree. -/
theorem Program.exists_generated {p : Program} {P : Pos → Prop} (hfit : p.block.arraysFit = true)
    (hp : p.IsAt P) :
    ∃ g fault, p.generated = .ok (g, fault) ∧ g.Ready P false
      ∧ (fault = none → Targeted g.code.lines) ∧ ∀ why, fault = some why → why.IsAt P := by
  have hpoints := Program.points hp hfit {} Generator.ready_empty
  have hchecked : ∀ {g : Generator} {fault}, g.Ready P false → g.checked fault = .ok (g, fault) :=
    fun hg => if_pos (List.all_eq_true.2 hg.code)
  unfold generated
  cases hrun : p.generate.run {} with
  | ok u g =>
    have hgen : p.generate {} = .ok u g := hrun
    rw [hgen] at hpoints
    have htargeted := targeted_of_generate hgen
    refine ⟨g, none, ?_, hpoints.1, fun _ => htargeted, nofun⟩
    simp [Sequence.pendingPosition?_eq_none htargeted, hchecked hpoints.1]
  | error why g =>
    have hgen : p.generate {} = .error why g := hrun
    rw [hgen] at hpoints
    cases why with
    | defect why => cases hpoints.symm.trans (p.clean why g hgen)
    | fault fault =>
      refine ⟨g, some fault, hchecked hpoints.2, hpoints.2, nofun, ?_⟩
      rintro _ ⟨⟩
      exact hpoints.1

theorem exists_compileTokens (o : Options) (file : String) (tokens : List Token) :
    ∃ c, compileTokens o file tokens = .ok c ∧ c.memory.InBounds
      ∧ (c.fault = none → Targeted c.lines) ∧ ∀ l ∈ c.lines, l.fits = true := by
  obtain ⟨g, fault, hgen, hready, htargeted, -⟩ :=
    Program.exists_generated (P := fun _ => True) (Program.arraysFit_ofTokens file tokens)
      (Program.isAt_ofTokens trivial fun _ _ _ => trivial)
  unfold compileTokens
  rw [hgen]
  refine ⟨_, rfl, hready.memory.bounds, fun hf => ?_, fun l hl => ?_⟩
  · dsimp only at hf ⊢
    split
    · exact (htargeted hf).of_tidied (tidied_tidy _)
    · exact htargeted hf
  · dsimp only at hl
    split at hl
    · exact hready.code l ((tidied_tidy _).sublist.subset hl)
    · exact hready.code l hl

/-- Compilation of a source text never fails.  It gives code in which no jump waits for its target
unless the text has a fault, and no address of a cell is beyond sixteen bits, a memory map within
the memory, and a symbol table of it. -/
theorem compileSource_total (files : Files) (o : Options) (name text : String) :
    ∃ c, compileSource files o name text = .ok c
      ∧ (c.fault = none → ∀ l ∈ c.lines, l.isPending = false)
      ∧ (∀ l ∈ c.lines, l.fits = true)
      ∧ c.memory.InBounds
      ∧ ∃ table, c.symbolText = .ok table := by
  suffices h : ∃ c, compileSource files o name text = .ok c ∧ c.memory.InBounds
      ∧ (c.fault = none → Targeted c.lines) ∧ ∀ l ∈ c.lines, l.fits = true by
    obtain ⟨c, hc, hmemory, htargeted, hfits⟩ := h
    obtain ⟨table, htable⟩ := hmemory.exists_table
    refine ⟨c, hc, fun hf l hl => (htargeted hf).isPending hl, hfits, hmemory, joinLines table, ?_⟩
    rw [Compilation.symbolText, htable]
    rfl
  unfold compileSource compileWith
  cases (lexUnit { legacy := o.legacyKeywords, files := files } name text).run {} with
  | error why lexer => exact ⟨_, rfl, .empty, nofun, nofun⟩
  | ok tokens lexer =>
    obtain ⟨c, hc, hc'⟩ := exists_compileTokens o name tokens
    dsimp only
    rw [hc]
    exact ⟨_, rfl, hc'⟩

end NibblePascal
