import NibblePascal.Proofs.Source.Nesting

/-!
# Files that are left open

A unit that is read to its end leaves the files that are being read as they were, and so does one
whose own `asm` block has no end.  A unit that is refused at an include line, its own or that of a
file in it, is left open itself.  A later unit cannot include it then.

* `LeavesOpen`: what an include line does to the files that are being read, and
  `lexInclude_leavesOpen`: that it does this at every depth;
* `LeavesBehind`: what a unit does to them;
* `include_stack_restored_iff`: when they are as they were, and what this means for later units.
-/

namespace NibblePascal

open Expansion

variable {o : LexOptions} {file text path : String} {st : Lexer} {reading : List String}
  {r : EStateM.Result Fault Lexer (List Token)} {include_ : Pos → String → LexM (List Token)}
  {legacy : Bool} {lines : List (List Char)}

/-! ### What is left open -/

/-- An include line leaves the files that are being read as they were, or fails and leaves more of
them.  It does not fail for an `asm` block of one of these files. -/
def LeavesOpen (reading : List String) : EStateM.Result Fault Lexer (List Token) → Prop
  | .ok _ st => st.reading = reading
  | .error why st => reading <:+ st.reading ∧ ∀ pos, why = .openAsm pos → pos.file ∉ reading

/-- A unit leaves the files that are being read as they were, also if its own `asm` block has no
end, or fails in its lines and stays open. -/
def LeavesBehind (file : String) (reading : List String) :
    EStateM.Result Fault Lexer (List Token) → Prop
  | .ok _ st => st.reading = reading
  | .error why st => st.reading = reading ∧ (∃ n, why = .openAsm ⟨file, n⟩)
      ∨ LeavesOpen (file :: reading) (.error why st)

/-- Two readers one after the other. -/
theorem LeavesOpen.append {x y : LexM (List Token)} (hx : LeavesOpen reading (x st))
    (hy : ∀ st', st'.reading = reading → LeavesOpen reading (y st')) :
    LeavesOpen reading ((do let ts ← x; return ts ++ (← y)) st) := by
  simp only [bind, EStateM.bind, pure, EStateM.pure]
  cases hxst : x st with
  | error why st' =>
    rw [hxst] at hx
    exact hx
  | ok ts st' =>
    rw [hxst] at hx
    have hy' := hy st' hx
    dsimp only
    cases hyst : y st' <;> rwa [hyst] at hy'

theorem lexLines_leavesOpen {n : Nat}
    (hinclude : ∀ pos path st', st'.reading = reading → LeavesOpen reading (include_ pos path st'))
    (hst : st.reading = reading) :
    LeavesOpen reading (lexLines legacy include_ file n lines st) := by
  induction lines generalizing n st with
  | nil => exact hst
  | cons line lines ih =>
    rw [lexLines]
    cases directive line with
    | include_ path => exact .append (hinclude _ path st hst) fun _ => ih
    | skip => exact .append hst fun _ => ih
    | plain =>
      refine .append ?_ fun _ => ih
      rw [lexLine_eq]
      exact hst

theorem lexText_leavesBehind
    (hinclude : ∀ pos path st', st'.reading = file :: st.reading →
      LeavesOpen (file :: st.reading) (include_ pos path st')) :
    LeavesBehind file st.reading (lexText legacy include_ file text st) := by
  have h : LeavesOpen (file :: st.reading)
      (lexLines legacy include_ file 1 (splitLines text.toList) (st.opened file text)) :=
    lexLines_leavesOpen hinclude rfl
  rw [lexText_eq]
  revert h
  cases lexLines legacy include_ file 1 (splitLines text.toList) (st.opened file text) with
  | error why st' => exact .inr
  | ok ts st' =>
    intro h
    have hclosed : st'.closed.reading = st.reading := congrArg List.tail h
    dsimp only
    split
    · exact .inl ⟨hclosed, _, rfl⟩
    · exact hclosed

/-- A file that was not open yet. -/
theorem LeavesBehind.leavesOpen (h : LeavesBehind path reading r) (hnew : path ∉ reading) :
    LeavesOpen reading r := by
  cases r with
  | ok ts st' => exact h
  | error why st' =>
    obtain ⟨hreading, n, rfl⟩ | ⟨hsuffix, hasm⟩ := h
    · refine ⟨hreading ▸ List.suffix_rfl, ?_⟩
      rintro pos ⟨⟩
      exact hnew
    · refine ⟨(List.suffix_cons path reading).trans hsuffix, fun pos hpos => ?_⟩
      exact (not_or.1 (List.mem_cons.not.1 (hasm pos hpos))).2

theorem leavesOpen_error {why : Fault} (hwhy : ∀ pos, why ≠ .openAsm pos) :
    LeavesOpen st.reading (.error why st) :=
  ⟨List.suffix_rfl, fun pos hpos => absurd hpos (hwhy pos)⟩

theorem lexInclude_zero {pos : Pos} (hnew : path ∉ st.reading) :
    lexInclude o 0 pos path st = .error (.missingInclude pos path) st := by
  have hcontains : st.reading.contains path = false := by simpa using hnew
  unfold lexInclude
  simp only [bind, EStateM.bind, get_run, hcontains]
  rfl

/-- An include line, whatever the depth. -/
theorem lexInclude_leavesOpen (o : LexOptions) (depth : Nat) (pos : Pos) (path : String)
    (st : Lexer) : LeavesOpen st.reading (lexInclude o depth pos path st) := by
  induction depth generalizing pos path st with
  | zero =>
    by_cases hopen : path ∈ st.reading
    · rw [lexInclude_of_open hopen]
      exact leavesOpen_error (by simp)
    · rw [lexInclude_zero hopen]
      exact leavesOpen_error (by simp)
  | succ depth ih =>
    by_cases hopen : path ∈ st.reading
    · rw [lexInclude_of_open hopen]
      exact leavesOpen_error (by simp)
    · cases hread : o.files.readText path with
      | error why =>
        rw [lexInclude_of_error hopen hread]
        exact leavesOpen_error (by simp)
      | ok text =>
        rw [lexInclude_of_ok hopen hread]
        refine (lexText_leavesBehind fun pos' path' st' hst' => ?_).leavesOpen hopen
        rw [← hst']
        exact ih pos' path' st'

theorem lexUnit_leavesBehind (o : LexOptions) (file text : String) (st : Lexer) :
    LeavesBehind file st.reading (lexUnit o file text st) := by
  refine lexText_leavesBehind fun pos path st' hst' => ?_
  rw [← hst']
  exact lexInclude_leavesOpen o _ pos path st'

/-! ### Later units -/

/-- The lexer after a unit, read or refused. -/
def lexerAfter : EStateM.Result Fault Lexer (List Token) → Lexer
  | .ok _ st => st
  | .error _ st => st

/-- The start of a unit that is read on its own, with what else lasts from line to line. -/
def Lexer.startOf (st : Lexer) (file text : String) : Expansion := (st.place [] []).enter file text

theorem LeavesBehind.reading_eq_iff (h : LeavesBehind file reading r) :
    (lexerAfter r).reading = reading
      ↔ ∀ why st, r = .error why st → ∃ n, why = .openAsm ⟨file, n⟩ := by
  cases r with
  | ok ts st => exact ⟨fun _ _ _ h => (by cases h), fun _ => h⟩
  | error why st =>
    obtain ⟨hreading, hasm⟩ | ⟨hsuffix, hasm⟩ := h
    · refine ⟨?_, fun _ => hreading⟩
      rintro - _ _ ⟨⟩
      exact hasm
    · constructor
      · intro hreading
        have hle := hsuffix.length_le
        rw [show st.reading = reading from hreading, List.length_cons] at hle
        omega
      · intro hown
        obtain ⟨n, rfl⟩ := hown why st rfl
        exact absurd List.mem_cons_self (hasm ⟨file, n⟩ rfl)

/-- What is left open: the unit and perhaps more files over it. -/
theorem LeavesBehind.exists_left (h : LeavesBehind file reading r)
    (hleft : (lexerAfter r).reading ≠ reading) :
    ∃ inner, (lexerAfter r).reading = inner ++ file :: reading := by
  cases r with
  | ok ts st => exact absurd h hleft
  | error why st =>
    obtain ⟨hreading, -⟩ | ⟨⟨inner, hinner⟩, -⟩ := h
    · exact absurd hreading hleft
    · exact ⟨inner, hinner.symm⟩

/-- A unit that begins with the include of an open file is refused. -/
theorem lexUnit_of_open {line : List Char} {rest : List (List Char)}
    (hlines : splitLines text.toList = line :: rest) (hline : directive line = .include_ path)
    (hopen : path ∈ st.reading) :
    ∃ st', lexUnit o file text st
      = .error (.source ⟨file, 1⟩ (.recursiveInclude path)) st' := by
  -- The files that are open already stand below the unit; none of their lines is read.
  let outer : List OpenFile := st.reading.map fun name => ⟨name, 0, []⟩
  have hnames : st.reading = outer.map (·.name) := by
    rw [List.map_map]
    exact (List.map_id st.reading).symm
  have hfollows := lexUnit_follows_from o file text [] hnames
  have hfails : Fails o ((st.place outer []).enter file text)
      (.source ⟨file, 1⟩ (.recursiveInclude path)) := by
    rw [Lexer.place, enter, hlines]
    exact .recursive hline (.tail _ (hnames ▸ hopen))
  cases hrun : lexUnit o file text st with
  | ok ts st' =>
    rw [hrun] at hfollows
    obtain heq | ⟨e, hstep, -⟩ := hfollows.1.cases_head
    · exact absurd (congrArg (·.files.length) heq) (Nat.succ_ne_self _)
    · exact absurd hstep hfails.not_step
  | error why st' =>
    rw [hrun] at hfollows
    obtain ⟨e', hreach, hwhy, -⟩ := hfollows
    obtain rfl | ⟨e, hstep, -⟩ := hreach.cases_head
    · exact ⟨st', by rw [hwhy.unique hfails]⟩
    · exact absurd hstep hfails.not_step

/-- A unit on its own is refused as a recursive include if and only if its own includes are
recursive. -/
theorem lexUnit_recursive_iff (o : LexOptions) (file text path : String) (pos : Pos)
    (hst : st.reading = []) :
    (∃ st', lexUnit o file text st = .error (.source pos (.recursiveInclude path)) st')
      ↔ ∃ e, Reaches o (st.startOf file text) e ∧ e.AtInclude pos path ∧ path ∈ e.names := by
  have hfollows : (st.startOf file text).Follows o [] (lexUnit o file text st) :=
    lexUnit_follows_from o file text [] hst
  constructor
  · rintro ⟨st', hrun⟩
    rw [hrun] at hfollows
    obtain ⟨e, hreach, hfails, -⟩ := hfollows
    exact ⟨e, hreach, fails_recursive_iff.1 hfails⟩
  · rintro ⟨e, hreach, hrecursive⟩
    have hfails : Fails o e _ := fails_recursive_iff.2 hrecursive
    cases hrun : lexUnit o file text st with
    | ok ts st' =>
      rw [hrun] at hfollows
      obtain rfl := hreach.eq_of_end hfollows.1 (fun _ => hfails.not_step)
        fun _ => not_step_of_done rfl
      exact absurd hfails (not_fails_of_done rfl)
    | error why st' =>
      rw [hrun] at hfollows
      obtain ⟨e', hreach', hwhy, -⟩ := hfollows
      obtain rfl := hreach.eq_of_end hreach' (fun _ => hfails.not_step) fun _ => hwhy.not_step
      exact ⟨st', by rw [hwhy.unique hfails]⟩

/-- **The files that are being read after a unit.**  They are as they were if and only if the unit
was read to its end, or its own `asm` block has no end.  If there were none and there are none, a
later unit is refused as a recursive include exactly if its own includes are recursive.  If they are
not as they were, the unit is left open, perhaps with files over it, and every later unit that
begins with an include of one of these is refused, whatever there is in the file. -/
theorem include_stack_restored_iff (o : LexOptions) (file text : String) (st : Lexer) :
    ((lexerAfter (lexUnit o file text st)).reading = st.reading
      ↔ ∀ why st', lexUnit o file text st = .error why st' → ∃ n, why = .openAsm ⟨file, n⟩)
    ∧ (st.reading = [] → (lexerAfter (lexUnit o file text st)).reading = st.reading →
      ∀ later laterText pos path,
        (∃ st', lexUnit o later laterText (lexerAfter (lexUnit o file text st))
          = .error (.source pos (.recursiveInclude path)) st')
        ↔ ∃ e, Reaches o ((lexerAfter (lexUnit o file text st)).startOf later laterText) e
          ∧ e.AtInclude pos path ∧ path ∈ e.names)
    ∧ ((lexerAfter (lexUnit o file text st)).reading ≠ st.reading →
      ∃ inner, (lexerAfter (lexUnit o file text st)).reading = inner ++ file :: st.reading
        ∧ ∀ path ∈ inner ++ [file], ∀ later laterText line rest,
          splitLines laterText.toList = line :: rest → directive line = .include_ path →
          ∃ st', lexUnit o later laterText (lexerAfter (lexUnit o file text st))
            = .error (.source ⟨later, 1⟩ (.recursiveInclude path)) st') := by
  have hleaves := lexUnit_leavesBehind o file text st
  refine ⟨hleaves.reading_eq_iff, fun hnone hsame later laterText pos path => ?_, fun hleft => ?_⟩
  · exact lexUnit_recursive_iff o later laterText path pos (hsame.trans hnone)
  · obtain ⟨inner, hinner⟩ := hleaves.exists_left hleft
    refine ⟨inner, hinner, fun path hpath later laterText line rest hlines hline => ?_⟩
    refine lexUnit_of_open hlines hline ?_
    rw [hinner, List.append_cons]
    exact List.mem_append_left _ hpath

end NibblePascal
