import NibblePascal.Proofs.Source.Nesting

/-!
# Positions of tokens

Every token of a unit comes from a line of a source text that was read, and its position is that
line.

* `Sources.HasLine s pos line`: the line at a position of the texts that were read;
* `Expansion.Sourced`: the texts that were read are those of the unit and of files, and every token
  comes from one of their lines; every step keeps this.
-/

namespace NibblePascal

/-! ### Source texts -/

namespace Sources

variable {s : Sources} {file name : String} {lines : List String}

theorem lookup_replace (entries : List (String × List String)) (file name : String)
    (lines : List String) :
    (entries.map fun e => if e.1 == file then (file, lines) else e).lookup name =
      if name = file then (entries.lookup file).map fun _ => lines else entries.lookup name := by
  induction entries with
  | nil => simp
  | cons e entries ih =>
    obtain ⟨key, old⟩ := e
    rw [List.map_cons]
    by_cases hkey : key = file
    · subst hkey
      by_cases hname : name = key
      · simp [hname]
      · have hne : (name == key) = false := by simpa using hname
        simpa [List.lookup_cons, hne, hname] using ih
    · have hfile : (file == key) = false := by simpa using Ne.symm hkey
      by_cases hname : name = key
      · subst hname
        simp [hkey]
      · have hne : (name == key) = false := by simpa using hname
        simpa [List.lookup_cons, hne, hfile, hkey] using ih

theorem get?_put (s : Sources) (file name : String) (lines : List String) :
    (s.put file lines).get? name = if name = file then some lines else s.get? name := by
  unfold put
  cases hold : s.get? file with
  | none =>
    change (s.entries ++ [(file, lines)]).lookup name = _
    rw [List.lookup_append]
    unfold get? at hold ⊢
    by_cases hname : name = file
    · subst hname
      rw [hold]
      simp
    · have hne : (name == file) = false := by simpa using hname
      simp [List.lookup_cons, hne, hname]
  | some old =>
    change (s.entries.map _).lookup name = _
    rw [lookup_replace]
    unfold get? at hold
    rw [hold]
    rfl

/-- The line at a position. -/
def HasLine (s : Sources) (pos : Pos) (line : List Char) : Prop :=
  ∃ lines n, s.get? pos.file = some lines ∧ pos.line = n + 1
    ∧ lines[n]? = some (String.ofList line)

theorem HasLine.line_eq {pos : Pos} {line : List Char} (h : s.HasLine pos line) :
    s.line pos.file pos.line = String.ofList line := by
  obtain ⟨lines, n, hlines, hn, hline⟩ := h
  rw [hn]
  simp [Sources.line, hlines, hline]

/-- A text that is read again has the same lines. -/
theorem HasLine.put {pos : Pos} {line : List Char} (h : s.HasLine pos line)
    (hsame : ∀ old, s.get? file = some old → old = lines) :
    (s.put file lines).HasLine pos line := by
  obtain ⟨old, n, hold, hn, hline⟩ := h
  by_cases hfile : pos.file = file
  · obtain rfl := hsame old (hfile ▸ hold)
    exact ⟨old, n, by rw [get?_put, if_pos hfile], hn, hline⟩
  · exact ⟨old, n, by rw [get?_put, if_neg hfile, hold], hn, hline⟩

end Sources

/-! ### Tokens of a line -/

theorem scan_pos {legacy : Bool} {pos : Pos} {count : Nat} {cs : List Char} {t : Token}
    (h : t ∈ scan legacy pos count cs) : t.pos = pos := by
  induction count generalizing cs with
  | zero => cases h
  | succ count ih =>
    rw [scan] at h
    split at h
    · cases h
    · obtain rfl | h := List.mem_cons.1 h
      · rfl
      · exact ih h

theorem lineTokens_pos {legacy inAsm : Bool} {pos : Pos} {line : List Char} {t : Token}
    (h : t ∈ (lineTokens legacy inAsm pos line).1) : t.pos = pos := by
  unfold lineTokens at h
  dsimp only at h
  split at h
  · split at h
    · simp only [List.mem_cons, List.not_mem_nil, or_false] at h
      obtain rfl | rfl := h <;> rfl
    · split at h
      · cases h
      · obtain rfl := List.mem_singleton.1 h
        rfl
  · split at h
    · obtain rfl := List.mem_singleton.1 h
      rfl
    · exact scan_pos h

/-! ### At every place -/

open Expansion

variable {o : LexOptions} {file text : String} {e e' : Expansion}

theorem LexOptions.Content.unique {name content content' : String}
    (h : o.Content file text name content) (h' : o.Content file text name content') :
    content = content' := by
  obtain ⟨hname, rfl⟩ | ⟨hname, hread⟩ := h <;> obtain ⟨hname', rfl⟩ | ⟨hname', hread'⟩ := h'
  · rfl
  · exact absurd hname hname'
  · exact absurd hname' hname
  · exact Except.ok.inj (hread.symm.trans hread')

/-- The texts that were read, and the tokens from their lines. -/
structure Expansion.Sourced (o : LexOptions) (file text : String) (e : Expansion) : Prop where
  texts : ∀ name lines, e.sources.get? name = some lines → ∃ content,
    o.Content file text name content ∧ lines = (splitLines content.toList).map String.ofList
  reading : ∀ name ∈ e.names, ∃ lines, e.sources.get? name = some lines
  tokens : ∀ t ∈ e.tokens, ∃ line inAsm, e.sources.HasLine t.pos line
    ∧ t ∈ (lineTokens o.legacy inAsm t.pos line).1

namespace Expansion.Sourced

/-- The lines of an open file. -/
theorem lines_of_mem {f : OpenFile} (h : e.Sourced o file text) (hnested : e.Nested o file text)
    (hf : f ∈ e.files) :
    ∃ before, e.sources.get? f.name = some ((before ++ f.rest).map String.ofList)
      ∧ f.line = before.length + 1 := by
  obtain ⟨lines, hlines⟩ := h.reading f.name (List.mem_map_of_mem hf)
  obtain ⟨content, hcontent, rfl⟩ := h.texts f.name lines hlines
  obtain ⟨content', before, hcontent', hbefore, hn⟩ := hnested.opened f hf
  obtain rfl := hcontent.unique hcontent'
  exact ⟨before, hbefore ▸ hlines, hn⟩

/-- The next line of an open file. -/
theorem hasLine {f : OpenFile} {line : List Char} {rest : List (List Char)}
    (h : e.Sourced o file text) (hnested : e.Nested o file text) (hf : f ∈ e.files)
    (hrest : f.rest = line :: rest) : e.sources.HasLine ⟨f.name, f.line⟩ line := by
  obtain ⟨before, hlines, hn⟩ := h.lines_of_mem hnested hf
  exact ⟨_, before.length, hlines, hn, by simp [hrest]⟩

theorem start (o : LexOptions) (file text : String) :
    (Expansion.start file text).Sourced o file text where
  texts := by
    intro name lines hlines
    rw [Expansion.start, enter, Sources.get?_put] at hlines
    split at hlines
    · cases hlines
      exact ⟨text, .inl ⟨‹_›, rfl⟩, rfl⟩
    · cases hlines
  reading := by
    intro name hname
    obtain rfl := List.mem_singleton.1 hname
    exact ⟨_, by rw [Expansion.start, enter, Sources.get?_put, if_pos rfl]⟩
  tokens := nofun

/-- Every step keeps this. -/
theorem step (h : e.Sourced o file text) (hnested : e.Nested o file text) (hstep : Step o e e') :
    e'.Sourced o file text := by
  cases hstep with
  | close => exact ⟨h.texts, fun name hname => h.reading name (.tail _ hname), h.tokens⟩
  | skip => exact ⟨h.texts, h.reading, h.tokens⟩
  | @plain name n line rest outer inAsm tokens sources hline =>
    refine ⟨h.texts, h.reading, fun t ht => ?_⟩
    obtain ht | ht := List.mem_append.1 ht
    · exact h.tokens t ht
    · have hpos := lineTokens_pos ht
      rw [← hpos] at ht
      exact ⟨line, inAsm, hpos ▸ h.hasLine hnested (.head _) rfl, ht⟩
  | @include_ name n line rest outer inAsm tokens sources path content hline hnew hread =>
    have hcontent : o.Content file text path content :=
      .inr ⟨hnested.ne_file (List.cons_ne_nil _ _) hnew, hread⟩
    refine ⟨fun name' lines hlines => ?_, fun name' hname' => ?_, fun t ht => ?_⟩
    · rw [enter, Sources.get?_put] at hlines
      split at hlines
      · rename_i heq
        cases hlines
        exact ⟨content, heq ▸ hcontent, rfl⟩
      · exact h.texts name' lines hlines
    · rw [enter, Sources.get?_put]
      split
      · exact ⟨_, rfl⟩
      · exact h.reading name' ((List.mem_cons.1 hname').resolve_left ‹_›)
    · obtain ⟨line', inAsm', hhas, hmem⟩ := h.tokens t ht
      refine ⟨line', inAsm', hhas.put fun old hold => ?_, hmem⟩
      -- A file that was read before has the same lines now.
      obtain ⟨content', hcontent', rfl⟩ := h.texts path old hold
      rw [hcontent.unique hcontent']

theorem of_reaches (h : Reaches o (Expansion.start file text) e) : e.Sourced o file text := by
  induction h with
  | refl => exact .start o file text
  | tail hreach hstep ih => exact ih.step (.of_reaches hreach) hstep

end Expansion.Sourced

end NibblePascal
