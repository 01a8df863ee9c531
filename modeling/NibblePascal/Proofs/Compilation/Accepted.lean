import NibblePascal.Compilation
import NibblePascal.Proofs.Reading.Bounds

/-!
# Accepted source texts

* `sourceTree?` is the tree that a source text spells, includes and all;
* `Accepts files o name text p c`: the source text spells the tree `p` and compiles without a
  fault to `c`;
* `isAccepted` decides whether there is such a `c`;
* `Accepts.generated`: the code and the memory of `c` are those of the tree.
-/

namespace NibblePascal

/-- The tree of a source text, if all its tokens can be read. -/
def sourceTree? (files : Files) (o : Options) (name text : String) : Option Program :=
  match (lexUnit { legacy := o.legacyKeywords, files := files } name text).run {} with
  | .ok tokens _ => some (.ofTokens name tokens)
  | .error _ _ => none

/-- The source text has the tree `p` and compiles without a fault to `c`. -/
structure Accepts (files : Files) (o : Options) (name text : String) (p : Program)
    (c : Compilation) : Prop where
  tree : sourceTree? files o name text = some p
  compiled : compileSource files o name text = .ok c
  fault : c.fault = none

variable {files : Files} {o : Options} {name text : String} {p : Program} {c : Compilation}

theorem Generator.of_checked {g : Generator} {fault : Option Fault} {r : Generator × Option Fault}
    (h : g.checked fault = .ok r) : r = (g, fault) := by
  unfold checked at h
  split at h <;> cases h
  rfl

theorem Program.of_generated {g : Generator} (h : p.generated = .ok (g, none)) :
    p.generate {} = .ok () g ∧ g.code.pendingPosition? = none := by
  unfold generated at h
  split at h
  case h_1 g' hrun =>
    split at h
    · cases h
    · rename_i hpending
      cases Generator.of_checked h
      exact ⟨hrun, by simpa using hpending⟩
  case h_2 => cases Generator.of_checked h
  case h_3 => cases h

/-- What a compilation of tokens is made of. -/
theorem of_compileTokens {file : String} {tokens : List Token}
    (h : compileTokens o file tokens = .ok c) :
    ∃ g fault, (Program.ofTokens file tokens).generated = .ok (g, fault) ∧ c.fault = fault
      ∧ c.memory = g.memory
      ∧ c.lines = if o.optimize && fault.isNone then tidy g.code.lines else g.code.lines := by
  unfold compileTokens at h
  cases hgen : (Program.ofTokens file tokens).generated with
  | error why => rw [hgen] at h; cases h
  | ok result =>
    obtain ⟨g, fault⟩ := result
    rw [hgen] at h
    cases h
    exact ⟨g, fault, rfl, rfl, rfl, rfl⟩

/-- A compilation without a fault has read all tokens. -/
theorem of_compileSource (h : compileSource files o name text = .ok c) (hf : c.fault = none) :
    ∃ tokens lexer c',
      (lexUnit { legacy := o.legacyKeywords, files := files } name text).run {} = .ok tokens lexer
      ∧ compileTokens o name tokens = .ok c' ∧ c'.fault = none ∧ c'.lines = c.lines
      ∧ c'.memory = c.memory := by
  unfold compileSource compileWith at h
  cases hlex : (lexUnit { legacy := o.legacyKeywords, files := files } name text).run {} with
  | error why lexer =>
    rw [hlex] at h
    cases h
    cases hf
  | ok tokens lexer =>
    rw [hlex] at h
    cases hc : compileTokens o name tokens with
    | error why => simp only [hc] at h; cases h
    | ok c' =>
      simp only [hc] at h
      cases h
      exact ⟨tokens, lexer, c', rfl, hc, hf, rfl, rfl⟩

/-- Whether a source text compiles without a fault and its tree passes a test. -/
def isAccepted (files : Files) (o : Options) (name text : String) (test : Program → Bool) : Bool :=
  match sourceTree? files o name text with
  | none => false
  | some p =>
      test p && match p.generated with
        | .ok (_, none) => true
        | _ => false

theorem exists_accepts_of_isAccepted {test : Program → Bool}
    (h : isAccepted files o name text test = true) :
    ∃ p c, Accepts files o name text p c ∧ test p = true := by
  unfold isAccepted at h
  cases htree : sourceTree? files o name text with
  | none => simp [htree] at h
  | some p =>
    simp only [htree, Bool.and_eq_true] at h
    obtain ⟨htest, hgen⟩ := h
    split at hgen
    case h_2 => cases hgen
    case h_1 g hg =>
      unfold sourceTree? at htree
      split at htree
      case h_2 => cases htree
      case h_1 tokens lexer hlex =>
        obtain rfl := Option.some.inj htree
        have hc : ∃ c, compileSource files o name text = .ok c ∧ c.fault = none := by
          unfold compileSource compileWith compileTokens
          rw [hlex]
          simp only [hg]
          exact ⟨_, rfl, rfl⟩
        obtain ⟨c, hcompiled, hfault⟩ := hc
        exact ⟨_, c, ⟨by simp only [sourceTree?, hlex], hcompiled, hfault⟩, htest⟩

theorem arraysFit_of_sourceTree (h : sourceTree? files o name text = some p) :
    p.block.arraysFit = true := by
  unfold sourceTree? at h
  split at h
  · cases h
    exact Program.arraysFit_ofTokens ..
  · cases h

theorem Accepts.arraysFit (h : Accepts files o name text p c) : p.block.arraysFit = true :=
  arraysFit_of_sourceTree h.tree

/-- The code of an accepted source text. -/
theorem Accepts.generated (h : Accepts files o name text p c) :
    ∃ g, p.generate {} = .ok () g ∧ g.code.pendingPosition? = none ∧ c.memory = g.memory
      ∧ c.lines = if o.optimize then tidy g.code.lines else g.code.lines := by
  obtain ⟨tokens, lexer, c', hlex, hc, hfault, hlines, hmemory⟩ := of_compileSource h.compiled h.fault
  obtain ⟨g, fault, hgen, rfl, hmemory', hlines'⟩ := of_compileTokens hc
  have hp : p = .ofTokens name tokens := by
    have htree := h.tree
    simp only [sourceTree?, hlex, Option.some.injEq] at htree
    exact htree.symm
  rw [hfault, ← hp] at hgen
  obtain ⟨hrun, hpending⟩ := Program.of_generated hgen
  refine ⟨g, hrun, hpending, hmemory.symm.trans hmemory', hlines.symm.trans ?_⟩
  simpa [hfault] using hlines'

end NibblePascal
