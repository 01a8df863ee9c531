import Mathlib.Logic.Relation
import NibblePascal.Proofs.Except
import NibblePascal.Token.Unit

/-!
# Expansion of includes, line by line

A unit and its includes are read as one stream of lines, with a stack of files that are being read.

* `Expansion` is a place on the way: the open files, whether an `asm` block is open, the tokens and
  the source lines so far;
* `Expansion.Step` lists what a line or the end of a file does, and `Expansion.Fails` where there is
  no way on; no rule has a bound on the depth of the includes;
* `Expansion.Follows e outer r`: from `e` the expansion comes to the result `r` of a reader, which
  leaves the files `outer` open;
* `lexText_follows`: so does the reader of a text whose includes are followed.
-/

namespace NibblePascal

/-- A file that is being read: its name, the number of its next line, and the lines from there
on. -/
structure OpenFile where
  name : String
  line : Nat
  rest : List (List Char)

/-- A place on the way through a unit and its includes; the innermost file comes first. -/
structure Expansion where
  files : List OpenFile
  inAsm : Bool
  tokens : List Token
  sources : Sources

/-- The tokens of a plain line, and whether an `asm` block is open after it. -/
def lineTokens (legacy inAsm : Bool) (pos : Pos) (line : List Char) : List Token × Bool :=
  let text := String.ofList (trim line)
  if inAsm then
    if text == "end;" then ([⟨.kwEnd, "end", pos⟩, ⟨.semicolon, ";", pos⟩], false)
    else if text.isEmpty then ([], true)
    else ([⟨.asmLine, text, pos⟩], true)
  else if text == "asm" then ([⟨.kwAsm, "asm", pos⟩], true)
  else (scanLine legacy pos line, false)

namespace Expansion

/-- The names of the open files. -/
def names (e : Expansion) : List String := e.files.map (·.name)

/-- Open a file with the given text. -/
def enter (e : Expansion) (file text : String) : Expansion :=
  { e with
    files := ⟨file, 1, splitLines text.toList⟩ :: e.files
    sources := e.sources.put file ((splitLines text.toList).map String.ofList) }

/-- The start of a unit. -/
def start (file text : String) : Expansion := enter ⟨[], false, [], {}⟩ file text

/-- One step on the way. -/
inductive Step (o : LexOptions) : Expansion → Expansion → Prop
  | close {name : String} {n : Nat} {outer : List OpenFile} {tokens : List Token}
      {sources : Sources} :
      Step o ⟨⟨name, n, []⟩ :: outer, false, tokens, sources⟩ ⟨outer, false, tokens, sources⟩
  | skip {name : String} {n : Nat} {line : List Char} {rest : List (List Char)}
      {outer : List OpenFile} {inAsm : Bool} {tokens : List Token} {sources : Sources}
      (hline : directive line = .skip) :
      Step o ⟨⟨name, n, line :: rest⟩ :: outer, inAsm, tokens, sources⟩
        ⟨⟨name, n + 1, rest⟩ :: outer, inAsm, tokens, sources⟩
  | plain {name : String} {n : Nat} {line : List Char} {rest : List (List Char)}
      {outer : List OpenFile} {inAsm : Bool} {tokens : List Token} {sources : Sources}
      (hline : directive line = .plain) :
      Step o ⟨⟨name, n, line :: rest⟩ :: outer, inAsm, tokens, sources⟩
        ⟨⟨name, n + 1, rest⟩ :: outer, (lineTokens o.legacy inAsm ⟨name, n⟩ line).2,
          tokens ++ (lineTokens o.legacy inAsm ⟨name, n⟩ line).1, sources⟩
  | include_ {name : String} {n : Nat} {line : List Char} {rest : List (List Char)}
      {outer : List OpenFile} {inAsm : Bool} {tokens : List Token} {sources : Sources}
      {path text : String} (hline : directive line = .include_ path)
      (hnew : path ∉ name :: outer.map (·.name)) (hread : o.files.readText path = .ok text) :
      Step o ⟨⟨name, n, line :: rest⟩ :: outer, inAsm, tokens, sources⟩
        (enter ⟨⟨name, n + 1, rest⟩ :: outer, inAsm, tokens, sources⟩ path text)

/-- The fault where there is no way on. -/
inductive Fails (o : LexOptions) : Expansion → Fault → Prop
  | openAsm {name : String} {n : Nat} {outer : List OpenFile} {tokens : List Token}
      {sources : Sources} :
      Fails o ⟨⟨name, n, []⟩ :: outer, true, tokens, sources⟩ (.openAsm ⟨name, n⟩)
  | recursive {name : String} {n : Nat} {line : List Char} {rest : List (List Char)}
      {outer : List OpenFile} {inAsm : Bool} {tokens : List Token} {sources : Sources}
      {path : String} (hline : directive line = .include_ path)
      (hopen : path ∈ name :: outer.map (·.name)) :
      Fails o ⟨⟨name, n, line :: rest⟩ :: outer, inAsm, tokens, sources⟩
        (.source ⟨name, n⟩ (.recursiveInclude path))
  | missing {name : String} {n : Nat} {line : List Char} {rest : List (List Char)}
      {outer : List OpenFile} {inAsm : Bool} {tokens : List Token} {sources : Sources}
      {path : String} {why : FileFault} (hline : directive line = .include_ path)
      (hnew : path ∉ name :: outer.map (·.name)) (hread : o.files.readText path = .error why) :
      Fails o ⟨⟨name, n, line :: rest⟩ :: outer, inAsm, tokens, sources⟩
        (.missingInclude ⟨name, n⟩ path)

/-- Any number of steps. -/
abbrev Reaches (o : LexOptions) : Expansion → Expansion → Prop := Relation.ReflTransGen (Step o)

variable {o : LexOptions} {e e₁ e₂ : Expansion} {why why' : Fault}

/-! ### There is one way -/

theorem Step.unique (h₁ : Step o e e₁) (h₂ : Step o e e₂) : e₁ = e₂ := by
  cases h₁ <;> cases h₂ <;> grind

theorem Fails.not_step (h : Fails o e why) : ¬ Step o e e₁ := by
  intro hstep
  cases h <;> cases hstep <;> grind

theorem Fails.unique (h : Fails o e why) (h' : Fails o e why') : why = why' := by
  cases h <;> cases h' <;> grind

theorem not_step_of_done (h : e.files = []) : ¬ Step o e e₁ := by
  intro hstep
  cases hstep <;> cases h

theorem not_fails_of_done (h : e.files = []) : ¬ Fails o e why := by
  intro hfails
  cases hfails <;> cases h

/-- Every place on the way leads to its end. -/
theorem Reaches.onward {s : Expansion} (h₁ : Reaches o s e₁) (h₂ : Reaches o s e₂)
    (hend : ∀ e, ¬ Step o e₂ e) : Reaches o e₁ e₂ := by
  -- Steps are unique, so the two ways share their steps until the second one ends.
  induction h₁ using Relation.ReflTransGen.head_induction_on with
  | refl => exact h₂
  | head hstep _ ih =>
    obtain rfl | ⟨e, hstep', h₂⟩ := h₂.cases_head
    · exact absurd hstep (hend _)
    · exact ih (hstep'.unique hstep ▸ h₂)

/-- There is one end. -/
theorem Reaches.eq_of_end {s : Expansion} (h₁ : Reaches o s e₁) (h₂ : Reaches o s e₂)
    (hend₁ : ∀ e, ¬ Step o e₁ e) (hend₂ : ∀ e, ¬ Step o e₂ e) : e₁ = e₂ := by
  obtain heq | ⟨e, hstep, -⟩ := (h₁.onward h₂ hend₂).cases_head
  · exact heq
  · exact absurd hstep (hend₁ e)

/-! ### The readers follow the way -/

/-- From `e` the expansion comes to the result of a reader, which leaves the files `outer` open. -/
def Follows (o : LexOptions) (e : Expansion) (outer : List OpenFile) :
    EStateM.Result Fault Lexer (List Token) → Prop
  | .ok tokens st =>
      Reaches o e ⟨outer, st.inAsm, e.tokens ++ tokens, st.sources⟩
        ∧ st.reading = outer.map (·.name)
  | .error why st => ∃ e', Reaches o e e' ∧ Fails o e' why ∧ e'.sources = st.sources

end Expansion

/-- The place where a lexer is, with its open files and its tokens so far. -/
def Lexer.place (st : Lexer) (files : List OpenFile) (tokens : List Token) : Expansion :=
  ⟨files, st.inAsm, tokens, st.sources⟩

open Expansion

variable {o : LexOptions} {st : Lexer} {file path text : String} {n : Nat}
  {line : List Char} {lines : List (List Char)} {outer : List OpenFile} {tokens : List Token}
  {e : Expansion}

/-- A step that reads no token, and then a reader. -/
theorem Expansion.Follows.head {e₁ : Expansion} {r : EStateM.Result Fault Lexer (List Token)}
    (h : e₁.Follows o outer r) (hstep : Step o e e₁) (htokens : e₁.tokens = e.tokens) :
    e.Follows o outer r := by
  cases r with
  | ok ts st => exact ⟨.head hstep (htokens ▸ h.1), h.2⟩
  | error why st =>
    obtain ⟨e', hreach, hfails⟩ := h
    exact ⟨e', .head hstep hreach, hfails⟩

/-- Two readers one after the other. -/
theorem Expansion.Follows.append {x y : LexM (List Token)} (mid : List OpenFile)
    (hx : e.Follows o mid (x st))
    (hy : ∀ (ts : List Token) (st' : Lexer), st'.reading = mid.map (·.name) →
      (st'.place mid (e.tokens ++ ts)).Follows o outer (y st')) :
    e.Follows o outer ((do let ts ← x; return ts ++ (← y)) st) := by
  simp only [bind, EStateM.bind, pure, EStateM.pure]
  cases hxst : x st with
  | error why st' =>
    rw [hxst] at hx
    exact hx
  | ok ts st' =>
    rw [hxst] at hx
    obtain ⟨hreach, hst'⟩ := hx
    have hy' := hy ts st' hst'
    dsimp only
    cases hyst : y st' with
    | error why st'' =>
      rw [hyst] at hy'
      obtain ⟨e', hreach', hfails⟩ := hy'
      exact ⟨e', hreach.trans hreach', hfails⟩
    | ok ts' st'' =>
      rw [hyst] at hy'
      obtain ⟨hreach', hst''⟩ := hy'
      refine ⟨hreach.trans ?_, hst''⟩
      simpa [Lexer.place] using hreach'

theorem lexLine_eq (legacy : Bool) (pos : Pos) (line : List Char) (st : Lexer) :
    lexLine legacy pos line st =
      .ok (lineTokens legacy st.inAsm pos line).1
        { st with inAsm := (lineTokens legacy st.inAsm pos line).2 } := by
  obtain ⟨inAsm, reading, sources⟩ := st
  cases inAsm with
  | true =>
    simp only [lexLine, lineTokens, bind, EStateM.bind, get_run, if_true]
    split
    · rfl
    · split <;> rfl
  | false =>
    simp only [lexLine, lineTokens, bind, EStateM.bind, get_run, Bool.false_eq_true, if_false]
    split <;> rfl

/-- The lexer when a file has been opened. -/
def Lexer.opened (st : Lexer) (file text : String) : Lexer :=
  { st with
    sources := st.sources.put file ((splitLines text.toList).map String.ofList)
    reading := file :: st.reading }

/-- The lexer when the innermost file has been closed. -/
def Lexer.closed (st : Lexer) : Lexer := { st with reading := st.reading.tail }

/-- A file is opened and its lines are read; it is closed only if that succeeds. -/
theorem lexText_eq (legacy : Bool) (include_ : Pos → String → LexM (List Token))
    (file text : String) (st : Lexer) :
    lexText legacy include_ file text st =
      match lexLines legacy include_ file 1 (splitLines text.toList) (st.opened file text) with
      | .error why st' => .error why st'
      | .ok tokens st' =>
          if st'.inAsm then .error (.openAsm ⟨file, (splitLines text.toList).length + 1⟩) st'.closed
          else .ok tokens st'.closed := by
  show ((do
    let ts ← lexLines legacy include_ file 1 (splitLines text.toList)
    modify fun st => { st with reading := st.reading.tail }
    if (← get).inAsm then throw (.openAsm ⟨file, (splitLines text.toList).length + 1⟩)
    return ts : LexM _) (st.opened file text)) = _
  simp only [bind, EStateM.bind]
  cases lexLines legacy include_ file 1 (splitLines text.toList) (st.opened file text) with
  | error why st' => rfl
  | ok ts st' =>
    obtain ⟨inAsm, reading, sources⟩ := st'
    cases inAsm <;> rfl

/-- A reader of includes that follows the expansion at the lines of a file. -/
def FollowsIncludes (o : LexOptions) (include_ : Pos → String → LexM (List Token)) (file : String)
    (outer : List OpenFile) (lines : List (List Char)) : Prop :=
  ∀ line ∈ lines, ∀ path, directive line = .include_ path → ∀ (n : Nat) (rest : List (List Char))
    (tokens : List Token) (st : Lexer), st.reading = file :: outer.map (·.name) →
    (st.place (⟨file, n, line :: rest⟩ :: outer) tokens).Follows o (⟨file, n + 1, rest⟩ :: outer)
      (include_ ⟨file, n⟩ path st)

theorem lexLines_follows {include_ : Pos → String → LexM (List Token)}
    (hinclude : FollowsIncludes o include_ file outer lines)
    (hst : st.reading = file :: outer.map (·.name)) :
    (st.place (⟨file, n, lines⟩ :: outer) tokens).Follows o
      (⟨file, n + lines.length, []⟩ :: outer) (lexLines o.legacy include_ file n lines st) := by
  induction lines generalizing n st tokens with
  | nil => exact ⟨by simpa [Lexer.place] using .refl, hst⟩
  | cons line lines ih =>
    have hrest : FollowsIncludes o include_ file outer lines :=
      fun l hl => hinclude l (.tail _ hl)
    -- Whatever the line is, the reader goes on with the next one in the same file.
    have hnext : ∀ (ts : List Token) (st' : Lexer), st'.reading = file :: outer.map (·.name) →
        (st'.place (⟨file, n + 1, lines⟩ :: outer) (tokens ++ ts)).Follows o
          (⟨file, n + (line :: lines).length, []⟩ :: outer)
          (lexLines o.legacy include_ file (n + 1) lines st') := by
      intro ts st' hst'
      rw [List.length_cons, Nat.add_comm lines.length, ← Nat.add_assoc]
      exact ih hrest hst'
    rw [lexLines]
    cases hline : directive line with
    | include_ path =>
      exact Follows.append _ (hinclude line (.head _) path hline n lines tokens st hst) hnext
    | skip =>
      refine Follows.append (⟨file, n + 1, lines⟩ :: outer) ⟨?_, hst⟩ hnext
      simpa [Lexer.place] using .single (.skip hline)
    | plain =>
      refine Follows.append (⟨file, n + 1, lines⟩ :: outer) ?_ hnext
      rw [lexLine_eq]
      exact ⟨.single (.plain hline), hst⟩

theorem lexText_follows {include_ : Pos → String → LexM (List Token)}
    (hinclude : FollowsIncludes o include_ file outer (splitLines text.toList))
    (hst : st.reading = outer.map (·.name)) :
    ((st.place outer tokens).enter file text).Follows o outer
      (lexText o.legacy include_ file text st) := by
  have h : ((st.opened file text).place (⟨file, 1, splitLines text.toList⟩ :: outer)
      tokens).Follows o (⟨file, 1 + (splitLines text.toList).length, []⟩ :: outer)
      (lexLines o.legacy include_ file 1 (splitLines text.toList) (st.opened file text)) :=
    lexLines_follows hinclude (congrArg (file :: ·) hst)
  rw [lexText_eq]
  revert h
  cases lexLines o.legacy include_ file 1 (splitLines text.toList) (st.opened file text) with
  | error why st' => exact fun h => h
  | ok ts st' =>
    rintro ⟨hreach, hst'⟩
    have hreading : st'.closed.reading = outer.map (·.name) := by rw [Lexer.closed, hst']; rfl
    obtain ⟨inAsm, reading, sources⟩ := st'
    cases inAsm with
    | true =>
      refine ⟨_, hreach, ?_, rfl⟩
      rw [Nat.add_comm 1]
      exact .openAsm
    | false => exact ⟨hreach.tail .close, hreading⟩

end NibblePascal
