import NibblePascal.Proofs.Compilation.Total
import NibblePascal.Proofs.Source.Positions

/-!
# Faults point at the source

The position of a fault is a line of a source text that was read, so that a diagnostic has a line
to show: the line of a token, or an include line.  Two faults point elsewhere.  A source text
without tokens has its faults at its first line, and an `asm` block that is open at the end of a
file is reported just behind the last line of it.
-/

namespace NibblePascal

/-- The tokens of a source text, if all of them can be read. -/
def sourceTokens? (files : Files) (o : Options) (name text : String) : Option (List Token) :=
  match (lexUnit { legacy := o.legacyKeywords, files := files } name text).run {} with
  | .ok tokens _ => some tokens
  | .error _ _ => none

/-- An include line at a position. -/
def Sources.HasInclude (s : Sources) (pos : Pos) (path : String) : Prop :=
  ∃ line, s.HasLine pos line ∧ directive line = .include_ path

/-- A line at a position with one of the tokens. -/
def Sources.HasToken (s : Sources) (legacy : Bool) (tokens : List Token) (pos : Pos) : Prop :=
  ∃ t ∈ tokens, t.isIgnorable = false ∧ t.pos = pos
    ∧ ∃ line inAsm, s.HasLine pos line ∧ t ∈ (lineTokens legacy inAsm pos line).1

/-- Where the fault of a source text with the given tokens points. -/
def Fault.Located (legacy : Bool) (name : String) (tokens? : Option (List Token))
    (sources : Sources) : Fault → Prop
  | source pos _ | memory pos _ =>
      (∃ tokens, tokens? = some tokens
        ∧ ((∀ t ∈ tokens, t.isIgnorable = true) ∧ pos = ⟨name, 1⟩
          ∨ sources.HasToken legacy tokens pos))
      ∨ ∃ path, sources.HasInclude pos path
  | missingInclude pos path => sources.HasInclude pos path
  | openAsm pos => ∃ lines, sources.get? pos.file = some lines ∧ pos.line = lines.length + 1
  | file _ | settings _ => False

variable {files : Files} {o : Options} {name text : String}

open Expansion

/-- The reader of a unit stops at an include line, or behind the end of a file. -/
theorem located_of_fails {lo : LexOptions} {e : Expansion} {why : Fault}
    (hreach : Reaches lo (start name text) e) (hfails : Fails lo e why) (legacy : Bool)
    (tokens? : Option (List Token)) : why.Located legacy name tokens? e.sources := by
  have hnested := Nested.of_reaches hreach
  have hsourced := Sourced.of_reaches hreach
  cases hfails with
  | openAsm =>
    obtain ⟨before, hlines, hn⟩ := hsourced.lines_of_mem hnested (.head _)
    exact ⟨_, hlines, by simpa using hn⟩
  | recursive hline hopen =>
    exact .inr ⟨_, _, hsourced.hasLine hnested (.head _) rfl, hline⟩
  | missing hline hnew hread => exact ⟨_, hsourced.hasLine hnested (.head _) rfl, hline⟩

/-- The fault of a text whose tokens can be read is at a token, if there is one. -/
theorem isAt_of_compileTokens {tokens : List Token} {c : Compilation} {why : Fault}
    {P : Pos → Prop} (htoken : ∀ t ∈ tokens, t.isIgnorable = false → P t.pos)
    (hnone : (∀ t ∈ tokens, t.isIgnorable = true) → P ⟨name, 1⟩)
    (hc : compileTokens o name tokens = .ok c) (hfault : c.fault = some why) : why.IsAt P := by
  obtain ⟨g, fault, hgenerated, rfl, -⟩ := of_compileTokens hc
  suffices hend : P (endOfTokens name (tokens.filter (!·.isIgnorable))) by
    obtain ⟨_, _, hgenerated', -, -, hat⟩ := Program.exists_generated
      (Program.arraysFit_ofTokens name tokens) (Program.isAt_ofTokens hend htoken)
    cases hgenerated.symm.trans hgenerated'
    exact hat why hfault
  unfold endOfTokens
  cases hlast : (tokens.filter (!·.isIgnorable)).getLast? with
  | none =>
    refine hnone fun t ht => ?_
    have hnil := List.getLast?_eq_none_iff.1 hlast
    simpa using List.filter_eq_nil_iff.1 hnil t ht
  | some t =>
    obtain ⟨ht, hkind⟩ := List.mem_filter.1 (List.mem_of_getLast? hlast)
    exact htoken t ht (by simpa using hkind)

/-- The fault of a source text, if it has one, points at a line that was read: at that of a token
or of an include, except that a text without tokens has its faults at its first line, and that an
open `asm` block is reported behind the last line of its file.  The line at a position is the one
that a diagnostic shows. -/
theorem faults_point_at_source (files : Files) (o : Options) (name text : String) :
    ∃ c, compileSource files o name text = .ok c
      ∧ (∀ why, c.fault = some why →
        why.Located o.legacyKeywords name (sourceTokens? files o name text) c.sources)
      ∧ ∀ pos line, c.sources.HasLine pos line →
        c.sources.line pos.file pos.line = String.ofList line := by
  obtain ⟨e, hreach, -, hanswer⟩ :=
    exists_isAnswer { legacy := o.legacyKeywords, files := files } name text
  unfold IsAnswer at hanswer
  unfold compileSource compileWith sourceTokens?
  cases hrun : (lexUnit { legacy := o.legacyKeywords, files := files } name text).run {} with
  | error why st =>
    rw [hrun] at hanswer
    obtain ⟨hfails, hsources⟩ := hanswer
    refine ⟨_, rfl, fun why' hwhy => ?_, fun pos line h => h.line_eq⟩
    cases hwhy
    exact hsources ▸ located_of_fails hreach hfails _ _
  | ok tokens st =>
    rw [hrun] at hanswer
    subst hanswer
    -- All tokens are there, so the fault is the parser's or the generator's, and points at one.
    obtain ⟨c, hc, -⟩ := exists_compileTokens o name tokens
    dsimp only
    rw [hc]
    refine ⟨_, rfl, fun why hwhy => ?_, fun pos line h => h.line_eq⟩
    have hsourced := Sourced.of_reaches hreach
    have hat : why.IsAt fun pos => (∀ t ∈ tokens, t.isIgnorable = true) ∧ pos = ⟨name, 1⟩
        ∨ st.sources.HasToken o.legacyKeywords tokens pos := by
      refine isAt_of_compileTokens (fun t ht hkind => .inr ?_) (fun hnone => .inl ⟨hnone, rfl⟩)
        hc hwhy
      obtain ⟨line, inAsm, hline⟩ := hsourced.tokens t ht
      exact ⟨t, ht, hkind, rfl, line, inAsm, hline⟩
    cases why with
    | source pos _ | memory pos _ => exact .inl ⟨tokens, rfl, hat⟩
    | missingInclude | openAsm | file | settings => exact hat.elim

end NibblePascal
