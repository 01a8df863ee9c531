import Mathlib.Data.List.Dedup
import Mathlib.Data.List.Nodup
import Mathlib.Data.List.Perm.Subperm
import NibblePascal.Proofs.Source.Includes

/-!
# Nested files

What the open files are like at every place on the way through a unit and its includes.

* `Expansion.Nested`: no name is open twice, the outermost file is the unit, and every file is at
  one of its own lines; every step keeps this, so it holds at every place;
* `Expansion.Reads`: an include line is read to the end of its file;
* `Reads.again`: the same line at another place gives the same tokens, unless there a path is open
  that the files in it include;
* `includes_come_to_an_end`: the expansion has an end, which is the answer of `lexUnit`.
-/

namespace NibblePascal

/-- What stands under a name: the text of the unit, or of the file with that path. -/
def LexOptions.Content (o : LexOptions) (file text name content : String) : Prop :=
  name = file ∧ content = text ∨ name ≠ file ∧ o.files.readText name = .ok content

/-- The paths in include lines of the unit and of files that lead to a text, each once. -/
def LexOptions.includable (o : LexOptions) (text : String) : List String :=
  ((directivePaths (splitLines text.toList) ++ o.files.included).filter fun path =>
    (o.files.readText path).isOk).dedup

/-- The paths of all files. -/
def Files.paths (files : Files) : List String := (files.entries.map (·.1)).dedup

open Expansion

variable {o : LexOptions} {file text path : String} {e e' : Expansion}

/-- A path in a line of the unit or of a file. -/
theorem LexOptions.mem_includable {content content' : String} {line : List Char}
    (hcontent : content = text ∨ content ∈ o.files.texts) (hmem : line ∈ splitLines content.toList)
    (hline : directive line = .include_ path) (hread : o.files.readText path = .ok content') :
    path ∈ o.includable text := by
  have hpath : path ∈ directivePaths (splitLines content.toList) :=
    mem_directivePaths.2 ⟨line, hmem, hline⟩
  refine List.mem_dedup.2 (List.mem_filter.2 ⟨?_, by rw [hread]; rfl⟩)
  obtain rfl | htext := hcontent
  · exact List.mem_append_left _ hpath
  · exact List.mem_append_right _ (List.mem_flatMap.2 ⟨content, htext, hpath⟩)

/-! ### At every place -/

/-- What every place on the way is like. -/
structure Expansion.Nested (o : LexOptions) (file text : String) (e : Expansion) : Prop where
  nodup : e.names.Nodup
  /-- The outermost file is the unit. -/
  bottom : ∀ f, e.files.getLast? = some f → f.name = file
  named : ∀ f ∈ e.files, f.name = file ∨ f.name ∈ o.includable text
  /-- The next line has the number that it has in its file. -/
  opened : ∀ f ∈ e.files, ∃ content before, o.Content file text f.name content
    ∧ splitLines content.toList = before ++ f.rest ∧ f.line = before.length + 1

namespace Expansion.Nested

theorem start (o : LexOptions) (file text : String) :
    (Expansion.start file text).Nested o file text where
  nodup := List.nodup_singleton _
  bottom := by
    rintro f ⟨⟩
    rfl
  named := by
    intro f hf
    obtain rfl := List.mem_singleton.1 hf
    exact .inl rfl
  opened := by
    intro f hf
    obtain rfl := List.mem_singleton.1 hf
    exact ⟨text, [], .inl ⟨rfl, rfl⟩, rfl, rfl⟩

/-- A line further in the innermost file. -/
theorem advance {name : String} {n : Nat} {line : List Char} {rest : List (List Char)}
    {outer : List OpenFile} {b b' : Bool} {ts ts' : List Token} {s s' : Sources}
    (h : Nested o file text ⟨⟨name, n, line :: rest⟩ :: outer, b, ts, s⟩) :
    Nested o file text ⟨⟨name, n + 1, rest⟩ :: outer, b', ts', s'⟩ where
  nodup := h.nodup
  bottom := by
    intro f hf
    cases outer with
    | nil =>
      cases hf
      exact h.bottom ⟨name, n, line :: rest⟩ rfl
    | cons f' outer => exact h.bottom f hf
  named := by
    intro f hf
    obtain rfl | hf := List.mem_cons.1 hf
    · exact h.named ⟨name, n, line :: rest⟩ (.head _)
    · exact h.named f (.tail _ hf)
  opened := by
    intro f hf
    obtain rfl | hf := List.mem_cons.1 hf
    · obtain ⟨content, before, hcontent, hlines, hn⟩ :=
        h.opened ⟨name, n, line :: rest⟩ (.head _)
      dsimp only at hlines hn
      exact ⟨content, before ++ [line], hcontent, by simp [hlines], by simp [hn]⟩
    · exact h.opened f (.tail _ hf)

/-- The unit is open, so it cannot be included. -/
theorem ne_file (h : e.Nested o file text) (hopen : e.files ≠ []) (hpath : path ∉ e.names) :
    path ≠ file := by
  rintro rfl
  rw [← h.bottom _ (List.getLast?_eq_some_getLast hopen)] at hpath
  exact hpath (List.mem_map_of_mem (List.getLast_mem hopen))

/-- Every step keeps this. -/
theorem step (h : e.Nested o file text) (hstep : Step o e e') : e'.Nested o file text := by
  cases hstep with
  | @close name n outer tokens sources =>
    refine ⟨(List.nodup_cons.1 h.nodup).2, fun f hf => h.bottom f ?_,
      fun f hf => h.named f (.tail _ hf), fun f hf => h.opened f (.tail _ hf)⟩
    cases outer with
    | nil => cases hf
    | cons f' outer => exact hf
  | skip => exact h.advance
  | plain => exact h.advance
  | @include_ name n line rest outer inAsm tokens sources path content' hline hnew hread =>
    have hnext : Nested o file text ⟨⟨name, n + 1, rest⟩ :: outer, inAsm, tokens, sources⟩ :=
      h.advance
    have hother : path ≠ file := h.ne_file (List.cons_ne_nil _ _) hnew
    -- The included file is new, and it stands in front of the files that were open.
    refine ⟨List.nodup_cons.2 ⟨hnew, hnext.nodup⟩, hnext.bottom, fun f hf => ?_, fun f hf => ?_⟩
    · obtain rfl | hf := List.mem_cons.1 hf
      · obtain ⟨content, before, hcontent, hlines, -⟩ := h.opened _ (.head _)
        refine .inr (LexOptions.mem_includable ?_ (hlines ▸ List.mem_append_right _ (.head _)) hline hread)
        exact hcontent.imp And.right fun hc => Files.mem_texts_of_readText hc.2
      · exact hnext.named f hf
    · obtain rfl | hf := List.mem_cons.1 hf
      · exact ⟨content', [], .inr ⟨hother, hread⟩, rfl, rfl⟩
      · exact hnext.opened f hf

theorem of_reaches (h : Reaches o (Expansion.start file text) e) : e.Nested o file text := by
  induction h with
  | refl => exact .start o file text
  | tail _ hstep ih => exact ih.step hstep

/-- One file more than there are paths to include. -/
theorem length_names_le (h : e.Nested o file text) :
    e.names.length ≤ 1 + (o.includable text).length := by
  have hsubset : e.names ⊆ file :: o.includable text := by
    intro name hname
    obtain ⟨f, hf, rfl⟩ := List.mem_map.1 hname
    exact List.mem_cons.2 (h.named f hf)
  have := (h.nodup.subperm hsubset).length_le
  rw [List.length_cons] at this
  omega

end Expansion.Nested

/-! ### An include line, to the end of its file -/

/-- The next line is an include. -/
def Expansion.AtInclude (e : Expansion) (pos : Pos) (path : String) : Prop :=
  ∃ line rest outer, e.files = ⟨pos.file, pos.line, line :: rest⟩ :: outer
    ∧ directive line = .include_ path

/-- Steps with more than `d` open files. -/
def Expansion.Deeper (o : LexOptions) (d : Nat) : Expansion → Expansion → Prop :=
  Relation.ReflTransGen fun e e' => Step o e e' ∧ d < e.files.length

/-- The include line where `e` is gives these tokens, and then an `asm` block is open or not. -/
def Expansion.Reads (o : LexOptions) (e : Expansion) (tokens : List Token) (inAsm : Bool) : Prop :=
  ∃ e₁ e', Step o e e₁ ∧ Deeper o e.files.length e₁ e' ∧ e'.files.length = e.files.length
    ∧ e'.tokens = e.tokens ++ tokens ∧ e'.inAsm = inAsm

/-- With more than `d` open files the way comes to an include of an open file. -/
def Expansion.Recurs (o : LexOptions) (d : Nat) (e : Expansion) : Prop :=
  ∃ e' pos path, Deeper o d e e' ∧ d < e'.files.length ∧ e'.AtInclude pos path ∧ path ∈ e'.names

namespace Expansion.Deeper

variable {inner outer : List OpenFile} {b : Bool} {ts ts₀ : List Token} {s : Sources}

/-- One step of the innermost files over other files. -/
theorem step_reframe {f : OpenFile} (outer' : List OpenFile) (ts₀' : List Token) (s' : Sources)
    (h : Step o ⟨f :: inner ++ outer, b, ts₀ ++ ts, s⟩ e) :
    (∃ inner' b' ts' s₁ s₁', e = ⟨inner' ++ outer, b', ts₀ ++ ts', s₁⟩
        ∧ Step o ⟨f :: inner ++ outer', b, ts₀' ++ ts, s'⟩ ⟨inner' ++ outer', b', ts₀' ++ ts', s₁'⟩)
      ∨ ∃ pos path, (⟨f :: inner ++ outer', b, ts₀' ++ ts, s'⟩ : Expansion).AtInclude pos path
        ∧ path ∈ (⟨f :: inner ++ outer', b, ts₀' ++ ts, s'⟩ : Expansion).names := by
  rw [List.cons_append] at h
  cases h with
  | close => exact .inl ⟨inner, false, ts, s, s', rfl, .close⟩
  | @skip name n line rest _ _ _ _ hline =>
    exact .inl ⟨⟨name, n + 1, rest⟩ :: inner, b, ts, s, s', rfl, .skip hline⟩
  | @plain name n line rest _ _ _ _ hline =>
    refine .inl ⟨⟨name, n + 1, rest⟩ :: inner, (lineTokens o.legacy b ⟨name, n⟩ line).2,
      ts ++ (lineTokens o.legacy b ⟨name, n⟩ line).1, s, s', ?_, ?_⟩
    · rw [List.append_assoc, List.cons_append]
    · rw [← List.append_assoc]
      exact .plain hline
  | @include_ name n line rest _ _ _ _ path text hline hnew hread =>
    by_cases hopen : path ∈ name :: (inner ++ outer').map (·.name)
    · exact .inr ⟨⟨name, n⟩, path, ⟨line, rest, _, rfl, hline⟩, hopen⟩
    · exact .inl ⟨⟨path, 1, _⟩ :: ⟨name, n + 1, rest⟩ :: inner, b, ts, _, _, rfl,
        .include_ hline hopen hread⟩

/-- The same files over other files go the same way, or come to an include of an open file. -/
theorem reframe (outer' : List OpenFile) (ts₀' : List Token) (s' : Sources)
    (h : Deeper o outer.length ⟨inner ++ outer, b, ts₀ ++ ts, s⟩ e)
    (hend : e.files.length = outer.length) :
    (∃ e' ts', Deeper o outer'.length ⟨inner ++ outer', b, ts₀' ++ ts, s'⟩ e'
        ∧ e'.files.length = outer'.length ∧ e.tokens = ts₀ ++ ts' ∧ e'.tokens = ts₀' ++ ts'
        ∧ e'.inAsm = e.inAsm)
      ∨ Recurs o outer'.length ⟨inner ++ outer', b, ts₀' ++ ts, s'⟩ := by
  -- The induction is on the way over `outer`; only the innermost files and what they give are the
  -- same at both places, so all the rest is generalized.
  generalize he : (⟨inner ++ outer, b, ts₀ ++ ts, s⟩ : Expansion) = e₀ at h
  induction h using Relation.ReflTransGen.head_induction_on generalizing inner b ts s s' with
  | refl =>
    subst he
    have hinner : inner = [] := List.length_eq_zero_iff.1 (by simpa using hend)
    subst hinner
    exact .inl ⟨_, ts, .refl, rfl, rfl, rfl, rfl⟩
  | head hstep _ ih =>
    subst he
    obtain ⟨hstep, hdeep⟩ := hstep
    cases inner with
    | nil => exact absurd hdeep (Nat.lt_irrefl _)
    | cons f inner =>
      have hdeep' : outer'.length < (f :: inner ++ outer').length := by
        rw [List.length_append, List.length_cons]
        omega
      obtain ⟨inner', b', ts', s₁, s₁', rfl, hstep'⟩ | ⟨pos, path, hat⟩ :=
        step_reframe outer' ts₀' s' hstep
      · obtain ⟨e', ts'', hdeeper, hrest⟩ | ⟨e', pos, path, hdeeper, hrest⟩ := ih s₁' rfl
        · exact .inl ⟨e', ts'', .head ⟨hstep', hdeep'⟩ hdeeper, hrest⟩
        · exact .inr ⟨e', pos, path, .head ⟨hstep', hdeep'⟩ hdeeper, hrest⟩
      · exact .inr ⟨_, pos, path, .refl, hdeep', hat⟩

end Expansion.Deeper

/-- The same include line at another place gives the same tokens, or its file is open there, or it
leads to an include of a file that is open. -/
theorem Expansion.Reads.again {pos pos' : Pos} {tokens : List Token} {inAsm : Bool}
    (h : e.Reads o tokens inAsm) (hat : e.AtInclude pos path) (hat' : e'.AtInclude pos' path)
    (hasm : e'.inAsm = e.inAsm) :
    e'.Reads o tokens inAsm ∨ path ∈ e'.names
      ∨ ∃ e₁, Step o e' e₁ ∧ Recurs o e'.files.length e₁ := by
  obtain ⟨e₁, e₂, hstep, hdeeper, hend, htokens, rfl⟩ := h
  obtain ⟨line, rest, outer, hfiles, hline⟩ := hat
  obtain ⟨line', rest', outer', hfiles', hline'⟩ := hat'
  obtain ⟨files, b, ts, s⟩ := e
  obtain ⟨files', b', ts', s'⟩ := e'
  dsimp only at hfiles hfiles' hasm htokens hend hdeeper
  subst hfiles hfiles' hasm
  cases hstep with
  | skip h => cases h.symm.trans hline
  | plain h => cases h.symm.trans hline
  | @include_ _ _ _ _ _ _ _ _ path' text hpath hnew hread =>
    cases hpath.symm.trans hline
    by_cases hopen : path ∈ pos'.file :: outer'.map (·.name)
    · exact .inr (.inl hopen)
    · -- The included file alone is innermost, over the rest of the file with the include line.
      have hframe : Deeper o (⟨pos.file, pos.line + 1, rest⟩ :: outer).length
          ⟨[⟨path, 1, splitLines text.toList⟩] ++ ⟨pos.file, pos.line + 1, rest⟩ :: outer, b', ts ++ [],
            s.put path ((splitLines text.toList).map String.ofList)⟩ e₂ := by
        rw [List.append_nil]
        exact hdeeper
      obtain ⟨e', ts'', hdeeper', hend', htokens₁, htokens', hasm⟩ | hrecurs :=
        hframe.reframe (⟨pos'.file, pos'.line + 1, rest'⟩ :: outer') ts'
          (s'.put path ((splitLines text.toList).map String.ofList)) hend
      · refine .inl ⟨_, e', .include_ hline' hopen hread, ?_, hend', ?_, hasm⟩
        · rw [List.append_nil] at hdeeper'
          exact hdeeper'
        · rw [htokens', List.append_cancel_left (htokens₁.symm.trans htokens)]
      · refine .inr (.inr ⟨_, .include_ hline' hopen hread, ?_⟩)
        rw [List.append_nil] at hrecurs
        exact hrecurs

/-! ### The end -/

theorem Expansion.fails_recursive_iff {pos : Pos} :
    Fails o e (.source pos (.recursiveInclude path)) ↔ e.AtInclude pos path ∧ path ∈ e.names := by
  constructor
  · rintro (_ | ⟨hline, hopen⟩)
    exact ⟨⟨_, _, _, rfl, hline⟩, hopen⟩
  · rintro ⟨⟨line, rest, outer, hfiles, hline⟩, hopen⟩
    obtain ⟨files, b, ts, s⟩ := e
    cases hfiles
    exact .recursive hline hopen

/-- The place where the expansion ends, as the answer for the unit says. -/
def Expansion.IsAnswer (o : LexOptions) (file text : String) (e : Expansion) : Prop :=
  match (lexUnit o file text).run {} with
  | .ok tokens st => e = ⟨[], st.inAsm, tokens, st.sources⟩
  | .error why st => Fails o e why ∧ e.sources = st.sources

theorem exists_isAnswer (o : LexOptions) (file text : String) :
    ∃ e, Reaches o (start file text) e ∧ (∀ e', ¬ Step o e e') ∧ e.IsAnswer o file text := by
  have hfollows := lexUnit_follows o file text
  unfold IsAnswer
  cases hrun : (lexUnit o file text).run {} with
  | ok tokens st =>
    rw [hrun] at hfollows
    exact ⟨_, hfollows.1, fun e' => not_step_of_done rfl, rfl⟩
  | error why st =>
    rw [hrun] at hfollows
    obtain ⟨e, hreach, hfails, hsources⟩ := hfollows
    exact ⟨e, hreach, fun e' => hfails.not_step, hfails, hsources⟩

theorem Expansion.IsAnswer.run_eq_error {why : Fault} (h : e.IsAnswer o file text)
    (hfails : Fails o e why) : ∃ st, (lexUnit o file text).run {} = .error why st := by
  unfold IsAnswer at h
  split at h
  · subst h
    exact absurd hfails (not_fails_of_done rfl)
  · rename_i why' st hrun
    exact ⟨st, by rw [hrun, h.1.unique hfails]⟩

/-- Includes come to an end.  Every place leads to the one end, which is the answer for the unit.
No name is open twice, so there is at most one file more than there are paths to include, or than
there are files, if every path to include is the path of a file.  The answer is a recursive include
exactly if the way comes to an include line with the path of an open file.  A path that was once
read to its end is read again with the same tokens, if nothing that it includes is open. -/
theorem includes_come_to_an_end (o : LexOptions) (file text : String) :
    (∃ last, (∀ e, Reaches o (start file text) e → Reaches o e last) ∧ (∀ e, ¬ Step o last e)
      ∧ last.IsAnswer o file text)
    ∧ (∀ e, Reaches o (start file text) e →
      e.names.Nodup ∧ e.names.length ≤ 1 + (o.includable text).length
        ∧ (o.includable text ⊆ o.files.paths → e.names.length ≤ 1 + o.files.paths.length))
    ∧ (∀ pos path,
      (∃ st, (lexUnit o file text).run {} = .error (.source pos (.recursiveInclude path)) st)
        ↔ ∃ e, Reaches o (start file text) e ∧ e.AtInclude pos path ∧ path ∈ e.names)
    ∧ ∀ e e' pos pos' path tokens inAsm, Reaches o (start file text) e →
      Reaches o (start file text) e' → e.AtInclude pos path → e'.AtInclude pos' path →
      e'.inAsm = e.inAsm → e.Reads o tokens inAsm →
      e'.Reads o tokens inAsm ∨ path ∈ e'.names
        ∨ ∃ e₁, Step o e' e₁ ∧ Recurs o e'.files.length e₁ := by
  obtain ⟨last, hlast, hend, hanswer⟩ := exists_isAnswer o file text
  refine ⟨⟨last, fun e he => he.onward hlast hend, hend, hanswer⟩, fun e he => ?_,
    fun pos path => ⟨?_, ?_⟩, fun e e' pos pos' path tokens inAsm _ _ hat hat' hasm hreads =>
      hreads.again hat hat' hasm⟩
  · have hnested := Nested.of_reaches he
    refine ⟨hnested.nodup, hnested.length_names_le, fun hpaths => ?_⟩
    have hle := ((List.nodup_dedup _).subperm hpaths).length_le
    exact Nat.le_trans hnested.length_names_le (Nat.add_le_add_left hle 1)
  · rintro ⟨st, hrun⟩
    unfold IsAnswer at hanswer
    rw [hrun] at hanswer
    exact ⟨last, hlast, fails_recursive_iff.1 hanswer.1⟩
  · rintro ⟨e, he, hrecursive⟩
    have hfails : Fails o e _ := fails_recursive_iff.2 hrecursive
    obtain rfl := he.eq_of_end hlast (fun e' => hfails.not_step) hend
    exact hanswer.run_eq_error hfails

end NibblePascal
