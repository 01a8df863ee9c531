import NibblePascal.Proofs.Except
import NibblePascal.Proofs.Source.Expansion

/-!
# Includes come to an end

The names of the open files are all different, and all but the first stand in lines of the unit or
of files.  So there are only so many of them, and `lexUnit`, whose includes are bounded by the
number of bytes in all files, never gets to its bound.

* `directivePaths`, `Files.included`: the paths in the include lines of a text, and of all files;
* `Files.length_included_le`: there are not more of them than bytes;
* `lexUnit_follows`: the answer of `lexUnit` is where the expansion of the unit ends.
-/

namespace NibblePascal

/-! ### Paths in include lines -/

/-- The path that a line includes. -/
def Directive.path? : Directive → Option String
  | include_ path => some path
  | _ => none

/-- The paths that lines include. -/
def directivePaths (lines : List (List Char)) : List String :=
  lines.filterMap fun line => (directive line).path?

theorem mem_directivePaths {lines : List (List Char)} {path : String} :
    path ∈ directivePaths lines ↔ ∃ line ∈ lines, directive line = .include_ path := by
  simp only [directivePaths, List.mem_filterMap]
  refine exists_congr fun line => and_congr_right fun _ => ?_
  cases directive line <;> simp [Directive.path?]

namespace Files

/-- The texts of all files that hold text. -/
def texts (files : Files) : List String := files.entries.filterMap fun e => String.fromUTF8? e.2

/-- The paths in the include lines of all files. -/
def included (files : Files) : List String :=
  files.texts.flatMap fun text => directivePaths (splitLines text.toList)

theorem mem_entries_of_follow {files : Files} {here parts : List String} {path : String}
    {bytes : ByteArray} (h : files.follow here parts = .file path bytes) :
    (path, bytes) ∈ files.entries := by
  induction parts generalizing here with
  | nil => cases h
  | cons part rest ih =>
    rw [follow] at h
    split at h
    · rename_i found hget
      split at h
      · cases h
        obtain ⟨before, after, heq, -⟩ := List.lookup_eq_some_iff.1 hget
        simp [heq]
      · cases h
    · split at h
      · exact ih h
      · split at h <;> cases h

/-- What is read is the text of some file. -/
theorem mem_texts_of_readText {files : Files} {path text : String}
    (h : files.readText path = .ok text) : text ∈ files.texts := by
  unfold readText at h
  obtain ⟨bytes, hread, h⟩ := of_bind_ok h
  have htext : String.fromUTF8? bytes = some text := by
    split at h
    · cases h
      assumption
    · cases h
  have hentry : ∃ name, (name, bytes) ∈ files.entries := by
    unfold read at hread
    split at hread
    · rename_i name found hplace
      cases hread
      unfold place at hplace
      split at hplace
      · cases hplace
      · exact ⟨name, mem_entries_of_follow hplace⟩
    all_goals cases hread
  obtain ⟨name, hmem⟩ := hentry
  exact List.mem_filterMap.2 ⟨_, hmem, htext⟩

end Files

/-! ### The number of include lines -/

theorem length_splitLinesFrom_le (line cs : List Char) :
    (splitLinesFrom line cs).length ≤ line.length + cs.length := by
  induction cs generalizing line with
  | nil =>
    cases line <;> simp [splitLinesFrom]
  | cons c cs ih =>
    rw [splitLinesFrom]
    split
    · have := ih []
      simp only [List.length_cons, List.length_nil] at *
      omega
    · have := ih (c :: line)
      simp only [List.length_cons] at *
      omega

/-- A character takes at least one byte. -/
theorem length_le_utf8ByteSize (cs : List Char) : cs.length ≤ (String.ofList cs).utf8ByteSize := by
  induction cs with
  | nil => simp
  | cons c cs ih =>
    have hpos := c.utf8Size_pos
    rw [String.ofList_cons, String.utf8ByteSize_append, String.utf8ByteSize_singleton,
      List.length_cons]
    omega

theorem length_directivePaths_le {bytes : ByteArray} {text : String}
    (h : String.fromUTF8? bytes = some text) :
    (directivePaths (splitLines text.toList)).length ≤ bytes.size := by
  have hbytes : text.utf8ByteSize = bytes.size := by
    unfold String.fromUTF8? at h
    split at h
    · cases h
      rfl
    · cases h
  calc (directivePaths (splitLines text.toList)).length
      ≤ (splitLines text.toList).length := List.length_filterMap_le ..
    _ ≤ text.toList.length := by simpa [splitLines] using length_splitLinesFrom_le [] text.toList
    _ ≤ (String.ofList text.toList).utf8ByteSize := length_le_utf8ByteSize _
    _ = bytes.size := by rw [String.ofList_toList, hbytes]

/-- There are not more include lines than bytes. -/
theorem Files.length_included_le (files : Files) : files.included.length ≤ files.size := by
  unfold included texts size
  induction files.entries with
  | nil => simp
  | cons entry entries ih =>
    cases htext : String.fromUTF8? entry.2 with
    | none =>
      simp only [List.filterMap_cons, htext, List.foldr_cons]
      omega
    | some text =>
      have := length_directivePaths_le htext
      simp only [List.filterMap_cons, htext, List.foldr_cons, List.flatMap_cons,
        List.length_append]
      omega

/-! ### The bound is never reached -/

/-- The paths in include lines of files that are not open yet. -/
def Files.unopened (files : Files) (names : List String) : List String :=
  files.included.filter (· ∉ names)

/-- Opening one of them leaves fewer. -/
theorem Files.length_unopened_cons_lt {files : Files} {names : List String} {path : String}
    (hpath : path ∈ files.included) (hnew : path ∉ names) :
    (files.unopened (path :: names)).length < (files.unopened names).length := by
  have hfilter : files.unopened (path :: names) = (files.unopened names).filter (· ≠ path) := by
    rw [unopened, unopened, List.filter_filter]
    refine List.filter_congr fun x _ => ?_
    simp [not_or]
  rw [hfilter]
  refine List.length_filter_lt_length_iff_exists.2 ⟨path, ?_, by simp⟩
  exact List.mem_filter.2 ⟨hpath, by simpa using hnew⟩

open Expansion

variable {o : LexOptions} {file text path : String} {depth : Nat} {pos : Pos} {st : Lexer}

theorem lexInclude_of_open (hopen : path ∈ st.reading) :
    lexInclude o depth pos path st = .error (.source pos (.recursiveInclude path)) st := by
  have hcontains : st.reading.contains path = true := by simpa using hopen
  unfold lexInclude
  simp only [bind, EStateM.bind, get_run, hcontains, if_true]
  rfl

theorem lexInclude_of_error (hnew : path ∉ st.reading) {why : FileFault}
    (hread : o.files.readText path = .error why) :
    lexInclude o depth pos path st = .error (.missingInclude pos path) st := by
  have hcontains : st.reading.contains path = false := by simpa using hnew
  unfold lexInclude
  simp only [bind, EStateM.bind, get_run, hcontains, hread]
  rfl

theorem lexInclude_of_ok (hnew : path ∉ st.reading) (hread : o.files.readText path = .ok text) :
    lexInclude o (depth + 1) pos path st = lexText o.legacy (lexInclude o depth) path text st := by
  have hcontains : st.reading.contains path = false := by simpa using hnew
  unfold lexInclude
  simp only [bind, EStateM.bind, get_run, hcontains, hread]
  rfl

/-- Includes are followed as long as the bound on their depth leaves room for the paths that are not
open yet. -/
theorem lexInclude_follows {n : Nat} {line : List Char} {rest : List (List Char)}
    {outer : List OpenFile} {tokens : List Token} (hline : directive line = .include_ path)
    (hst : st.reading = file :: outer.map (·.name))
    (hdepth : path ∉ st.reading → (o.files.unopened (path :: st.reading)).length < depth) :
    (st.place (⟨file, n, line :: rest⟩ :: outer) tokens).Follows o (⟨file, n + 1, rest⟩ :: outer)
      (lexInclude o depth ⟨file, n⟩ path st) := by
  induction depth generalizing file path n line rest outer tokens st with
  | zero =>
    by_cases hopen : path ∈ st.reading
    · rw [lexInclude_of_open hopen]
      exact ⟨_, .refl, .recursive hline (hst ▸ hopen), rfl⟩
    · exact absurd (hdepth hopen) (Nat.not_lt_zero _)
  | succ depth ih =>
    by_cases hopen : path ∈ st.reading
    · rw [lexInclude_of_open hopen]
      exact ⟨_, .refl, .recursive hline (hst ▸ hopen), rfl⟩
    · have hnew : path ∉ file :: outer.map (·.name) := hst ▸ hopen
      cases hread : o.files.readText path with
      | error why =>
        rw [lexInclude_of_error hopen hread]
        exact ⟨_, .refl, .missing hline hnew hread, rfl⟩
      | ok text =>
        rw [lexInclude_of_ok hopen hread]
        refine Follows.head (lexText_follows (fun line hmem path' hline' n' rest' tokens' st' hst' =>
          ih hline' hst' fun hnew' => ?_) hst) (.include_ hline hnew hread) rfl
        -- The path stands in a file and is not open, so there is room for it.
        have hpath : path' ∈ o.files.included :=
          List.mem_flatMap.2 ⟨text, Files.mem_texts_of_readText hread,
            mem_directivePaths.2 ⟨line, hmem, hline'⟩⟩
        have hfewer := Files.length_unopened_cons_lt hpath hnew'
        have hroom := hdepth hopen
        rw [hst] at hroom
        rw [hst'] at hfewer ⊢
        exact Nat.lt_of_lt_of_le hfewer (Nat.le_of_lt_succ hroom)

/-- The answer for a unit is where its expansion ends, also over files that are open already. -/
theorem lexUnit_follows_from {outer : List OpenFile} (o : LexOptions) (file text : String)
    (tokens : List Token) (hst : st.reading = outer.map (·.name)) :
    ((st.place outer tokens).enter file text).Follows o outer (lexUnit o file text st) := by
  refine lexText_follows (fun line hmem path hline n rest tokens st hst =>
    lexInclude_follows hline hst fun _ => ?_) hst
  exact Nat.lt_succ_of_le (Nat.le_trans (List.length_filter_le ..) o.files.length_included_le)

/-- The answer for a unit is where its expansion ends. -/
theorem lexUnit_follows (o : LexOptions) (file text : String) :
    (start file text).Follows o [] ((lexUnit o file text).run {}) :=
  lexUnit_follows_from o file text [] rfl

end NibblePascal
