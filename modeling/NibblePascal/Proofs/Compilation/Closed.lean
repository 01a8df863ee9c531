import NibblePascal.Proofs.Assembly.Tidied
import NibblePascal.Proofs.Compilation.Accepted
import NibblePascal.Proofs.Generation.Program

/-!
# Accepted code can be run

The code of an accepted source text without inline assembly is closed: every label stands in one
place and every jump has its label.  Tidying takes no label out, so this holds of tidied code too.
-/

namespace NibblePascal

variable {files : Files} {o : Options} {name text : String} {p : Program} {c : Compilation}

/-- The lines of an accepted source text are those of its tree, tidied or not. -/
theorem Accepts.coded (h : Accepts files o name text p c) (hp : p.block.asmFree = true) :
    ∃ code outline, p.Coded code outline ∧ c.memory = outline.stock.memory
      ∧ c.lines = if o.optimize then tidy (outline.lines (Program.pieces code))
        else outline.lines (Program.pieces code) := by
  obtain ⟨g, hgen, -, hmemory, hlines⟩ := h.generated
  obtain ⟨code, outline, hcode, heq, hmem⟩ := Program.coded_of_generate hp hgen
  exact ⟨code, outline, hcode, hmemory.trans hmem, heq ▸ hlines⟩

theorem Accepts.closed (h : Accepts files o name text p c) (hp : p.block.asmFree = true) :
    Image.Closed c.lines := by
  obtain ⟨code, outline, hcode, -, hlines⟩ := h.coded hp
  rw [hlines]
  split
  · exact hcode.closed.tidied (tidied_tidy _)
  · exact hcode.closed

/-- Every label of an accepted program without inline assembly stands in exactly one place, every
jump names a label of the program, and so the program can be loaded. -/
theorem accepted_labels_closed (h : Accepts files o name text p c) (hp : p.block.asmFree = true) :
    (labelNames c.lines).Nodup
      ∧ (∀ t ∈ jumpTargets c.lines, (labelNames c.lines).count t = 1)
      ∧ ∃ image, Image.ofLines? c.lines = some image := by
  have hclosed := h.closed hp
  obtain ⟨image, himage, -⟩ := hclosed.exists_image
  exact ⟨hclosed.nodup, fun t ht => List.count_eq_one_of_mem hclosed.nodup (hclosed.jumps t ht),
    image, himage⟩

/-- A loop around a call, and a second call. -/
def callsText : String :=
  "var i, n: nibble;\nprocedure p;\nbegin\n  inc n\nend;\n"
    ++ "begin\n  for i := 1 to 3 do call p;\n  call p\nend.\n"

theorem accepted_labels_closed_calls : ∃ p c, Accepts {} {} "calls" callsText p c
    ∧ p.block.asmFree = true ∧ (labelNames c.lines).Nodup
      ∧ (∀ t ∈ jumpTargets c.lines, (labelNames c.lines).count t = 1)
      ∧ ∃ image, Image.ofLines? c.lines = some image := by
  have haccepted : isAccepted {} {} "calls" callsText (·.block.asmFree) = true := by
    decide +kernel
  obtain ⟨p, c, h, hp⟩ := exists_accepts_of_isAccepted haccepted
  exact ⟨p, c, h, hp, accepted_labels_closed h hp⟩

end NibblePascal
