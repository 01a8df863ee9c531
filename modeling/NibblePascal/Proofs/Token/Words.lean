import Mathlib.Data.List.Basic
import Mathlib.Data.List.TakeWhile
import NibblePascal.Proofs.Token.Scan

/-!
# Words

Where a letter or an underscore stands, only the patterns of words can fit, and of the text only the
word characters from there on count, the *run*.

* `reserved` lists the words that the table gives a kind of their own, keywords and names of widths;
* `Recognised legacy word run`: a reserved word is recognised if it is the run, and with legacy
  keywords also if the run begins with it;
* `firstToken_of_isNameStart`: the first token is the first reserved word that is recognised, and
  else the run is a name.

So a word is cut as long as it can be, `words_cut_longest`, unless keywords are legacy ones; and
these change the tokens of a line just where a name begins with a reserved word, `modes_agree_iff`.
-/

namespace NibblePascal

variable {legacy : Bool} {pos : Pos} {cs rest w letters : List Char} {c d : Char} {n : Nat}
  {kind : Kind} {ts : List Token}

/-! ### Characters -/

/-- The characters that a name begins with. -/
def isNameStart (c : Char) : Bool := c == '_' || isLetter c

theorem isDigit_iff : isDigit c = true ↔ 48 ≤ c.toNat ∧ c.toNat ≤ 57 := by
  rw [isDigit, Bool.and_eq_true, decide_eq_true_iff, decide_eq_true_iff]
  exact Iff.rfl

theorem isLetter_iff :
    isLetter c = true ↔ (97 ≤ c.toNat ∧ c.toNat ≤ 122) ∨ (65 ≤ c.toNat ∧ c.toNat ≤ 90) := by
  simp only [isLetter, Bool.or_eq_true, Bool.and_eq_true, decide_eq_true_iff]
  exact Iff.rfl

theorem isNameStart_iff : isNameStart c = true ↔
    c.toNat = 95 ∨ (97 ≤ c.toNat ∧ c.toNat ≤ 122) ∨ (65 ≤ c.toNat ∧ c.toNat ≤ 90) := by
  rw [isNameStart, Bool.or_eq_true, beq_iff_eq, isLetter_iff, ← Char.toNat_inj]
  exact Iff.rfl

theorem isWordChar_of_isNameStart (h : isNameStart c = true) : isWordChar c = true := by
  have hranges : alphanumericRanges
      = (0x30, 0x39) :: (0x41, 0x5A) :: (0x61, 0x7A) :: alphanumericRanges.drop 3 := rfl
  rw [isWordChar, Bool.or_eq_true, beq_iff_eq, isAlphanumeric, hranges]
  rw [isNameStart_iff] at h
  simp only [inRanges]
  rcases h with h | h | h
  · exact Or.inr (Char.toNat_inj.1 h)
  · left
    rw [if_pos (by omega), if_pos (by omega), if_neg (by omega), decide_eq_true_iff]
    omega
  · left
    rw [if_pos (by omega), if_neg (by omega), decide_eq_true_iff]
    omega

theorem isDigit_eq_false_of_isNameStart (h : isNameStart c = true) : isDigit c = false := by
  rw [isNameStart_iff] at h
  rw [← Bool.not_eq_true, isDigit_iff]
  omega

theorem ne_of_isNameStart (hc : isNameStart c = true) (hd : isNameStart d = false) : c ≠ d := by
  rintro rfl
  exact Bool.false_ne_true (hd.symm.trans hc)

/-! ### Runs of word characters -/

/-- A word is recognised in a run of word characters: it is the run, or, with legacy keywords, the
run begins with it. -/
def Recognised (legacy : Bool) (word run : List Char) : Prop :=
  word <+: run ∧ (legacy = true ∨ word = run)

theorem wordLength?_eq_some_iff (hletters : ∀ c ∈ letters, isWordChar c = true) :
    wordLength? legacy letters cs = some n
      ↔ n = letters.length ∧ Recognised legacy letters (cs.takeWhile isWordChar) := by
  unfold wordLength? Recognised
  by_cases hbegin : letters <+: cs
  · rw [if_pos (List.isPrefixOf_iff_prefix.2 hbegin)]
    obtain ⟨rest, rfl⟩ := hbegin
    rw [List.drop_left, List.takeWhile_append_of_pos hletters]
    have hlength : some letters.length = some n ↔ n = letters.length := by
      rw [Option.some_inj, eq_comm]
    cases rest with
    | nil => simp [hlength]
    | cons c rest =>
      -- the character behind the word belongs to the run if it is a word character
      cases hc : isWordChar c with
      | false => simp [hc, hlength]
      | true => cases legacy <;> simp [hc, hlength]
  · rw [if_neg (by rwa [List.isPrefixOf_iff_prefix])]
    constructor
    · exact nofun
    · rintro ⟨-, h, -⟩
      exact absurd (h.trans (List.takeWhile_prefix _)) hbegin

theorem takeWhile_of_isNameStart (cs : List Char) (hc : isNameStart c = true) :
    (c :: cs).takeWhile isWordChar = c :: cs.takeWhile isWordChar :=
  List.takeWhile_cons_of_pos (isWordChar_of_isNameStart hc)

/-! ### The table -/

/-- The words that a pattern is made for. -/
def Pattern.words : Pattern → List (List Char)
  | word letters => [letters]
  | typeName => ["nibble".toList, "byte".toList, "word".toList]
  | _ => []

/-- The words that the table gives a kind of their own: keywords and names of widths. -/
def reserved : List (Kind × List Char) :=
  patterns.flatMap fun p => p.2.words.map fun w => (p.1, w)

/-- The kind of a word: the kind it is reserved for, or else a name. -/
def wordKind (word : List Char) : Kind :=
  match reserved.find? (·.2 == word) with
  | some entry => entry.1
  | none => .name

/-- Words begin like names, and signs do not. -/
def Pattern.isSpelled : Pattern → Bool
  | sign chars => chars.head?.any fun c => !isNameStart c
  | pattern => pattern.words.all fun w => w.head?.any isNameStart

theorem isSpelled_of_mem_patterns : ∀ p ∈ patterns, p.2.isSpelled = true := by decide +kernel

theorem Pattern.head_of_mem_words {pattern : Pattern} (hspelled : pattern.isSpelled = true)
    (hw : w ∈ pattern.words) : w.head?.any isNameStart = true := by
  cases pattern with
  | sign => cases hw
  | word | typeName | number | text | name | blanks | comment =>
    exact List.all_eq_true.1 hspelled w hw

/-- The patterns that are tried before that of names. -/
def leading : List (Kind × Pattern) := patterns.takeWhile fun p => p.2 != .name

theorem patterns_eq : patterns = leading ++ [(.name, .name), (.blanks, .blanks)] := rfl

theorem reserved_eq : reserved = leading.flatMap fun p => p.2.words.map fun w => (p.1, w) := rfl

theorem wordChars_of_mem_reserved :
    ∀ e ∈ reserved, ∀ c ∈ e.2, isWordChar c = true := by
  have hall : ∀ e ∈ reserved, e.2.all isWordChar = true := by decide +kernel
  exact fun e he => List.all_eq_true.1 (hall e he)

theorem head_of_mem_reserved :
    ∀ e ∈ reserved, e.2.head?.any isNameStart = true := by decide +kernel

theorem kind_ne_name_of_mem_reserved : ∀ e ∈ reserved, e.1 ≠ .name := by decide +kernel

theorem wordKind_of_mem_reserved : ∀ e ∈ reserved, wordKind e.2 = e.1 := by decide +kernel

/-- Each reserved word by itself is a token of its kind, in either mode: a word that the table has
before it is no beginning of it. -/
theorem firstToken_of_mem_reserved (legacy : Bool) :
    ∀ e ∈ reserved, firstToken legacy e.2 = (e.1, e.2.length) := by
  revert legacy
  decide +kernel

theorem wordKind_eq_name (h : ∀ e ∈ reserved, e.2 ≠ w) : wordKind w = .name := by
  have hnone : reserved.find? (·.2 == w) = none := by
    rw [List.find?_eq_none]
    intro e he
    rw [beq_iff_eq]
    exact h e he
  rw [wordKind, hnone]

theorem mem_reserved_of_wordKind (h : wordKind w ≠ .name) : (wordKind w, w) ∈ reserved := by
  unfold wordKind at h ⊢
  split
  · rename_i e he
    have hw := List.find?_some he
    rw [beq_iff_eq] at hw
    exact hw ▸ List.mem_of_find?_eq_some he
  · rename_i he
    rw [he] at h
    exact absurd rfl h

/-! ### The first token of a word -/

/-- A fixed text is not found where a character of another sort stands. -/
theorem not_prefix_of_head {p : Char → Bool} (h : letters.head?.any p = true) (hc : p c = false) :
    ¬ letters <+: c :: cs := by
  cases letters with
  | nil => cases h
  | cons d letters =>
    intro hbegin
    obtain rfl := (List.cons_prefix_cons.1 hbegin).1
    exact Bool.false_ne_true (hc.symm.trans h)

/-- The characters that a number can begin with. -/
theorem numberStart_cases (c : Char) : isDigit c = true ∨ c = '$' ∨ c = '%' ∨ c = '\''
    ∨ ∀ cs, numberLength? (c :: cs) = none := by
  by_cases hdigit : isDigit c = true
  · exact Or.inl hdigit
  by_cases hdollar : c = '$'
  · exact Or.inr (Or.inl hdollar)
  by_cases hpercent : c = '%'
  · exact Or.inr (Or.inr (Or.inl hpercent))
  by_cases hquote : c = '\''
  · exact Or.inr (Or.inr (Or.inr (Or.inl hquote)))
  · refine Or.inr (Or.inr (Or.inr (Or.inr fun cs => ?_)))
    simp [numberLength?, hdigit, hdollar, hpercent, hquote]

theorem numberLength?_of_isNameStart (cs : List Char) (hc : isNameStart c = true) :
    numberLength? (c :: cs) = none := by
  rcases numberStart_cases c with hdigit | rfl | rfl | rfl | hnone
  · rw [isDigit_eq_false_of_isNameStart hc] at hdigit
    cases hdigit
  · cases hc
  · cases hc
  · cases hc
  · exact hnone cs

theorem quotedLength?_of_ne (hc : c ≠ '\'') : quotedLength? (c :: cs) = none := by
  unfold quotedLength?
  split
  · rename_i heq
    exact absurd (List.cons.inj heq).1 hc
  · rfl

theorem blanksLength?_eq_none_iff :
    blanksLength? (c :: cs) = none ↔ c ≠ ' ' ∧ c ≠ '\t' := by
  have hblank : (c == ' ' || c == '\t') = true ↔ c = ' ' ∨ c = '\t' := by
    rw [Bool.or_eq_true, beq_iff_eq, beq_iff_eq]
  rw [← not_or, ← hblank, blanksLength?, List.takeWhile_cons]
  cases c == ' ' || c == '\t' with
  | false => simp
  | true => simp

theorem sign_eq_none_iff {chars : List Char} :
    (Pattern.sign chars).length? legacy cs = none ↔ ¬ chars <+: cs := by
  simp [Pattern.length?]

theorem comment_eq_none_iff : Pattern.comment.length? legacy cs = none ↔ ¬ ['/', '/'] <+: cs := by
  simp [Pattern.length?]

/-- Where a name could begin, every pattern but that of names looks for its words. -/
theorem Pattern.length?_of_isNameStart {pattern : Pattern} (hspelled : pattern.isSpelled = true)
    (hname : pattern ≠ .name) (hc : isNameStart c = true) :
    pattern.length? legacy (c :: cs)
      = pattern.words.findSome? fun w => wordLength? legacy w (c :: cs) := by
  cases pattern with
  | word letters => simp [length?, words]
  | sign chars => exact sign_eq_none_iff.2 (not_prefix_of_head hspelled (by rw [hc]; rfl))
  | typeName => rfl
  | number => exact numberLength?_of_isNameStart cs hc
  | text => exact quotedLength?_of_ne (ne_of_isNameStart hc (by decide))
  | name => exact absurd rfl hname
  | blanks =>
    exact blanksLength?_eq_none_iff.2
      ⟨ne_of_isNameStart hc (by decide), ne_of_isNameStart hc (by decide)⟩
  | comment =>
    refine comment_eq_none_iff.2 fun h => ?_
    exact ne_of_isNameStart hc (by decide) (List.cons_prefix_cons.1 h).1.symm

/-- Looking through patterns is looking through their words. -/
theorem findSome?_words {ps : List (Kind × Pattern)}
    (hps : ∀ p ∈ ps, p.2.isSpelled = true ∧ p.2 ≠ .name) (hc : isNameStart c = true) :
    ps.findSome? (fun p => (p.2.length? legacy (c :: cs)).map fun n => (p.1, n))
      = (ps.flatMap fun p => p.2.words.map fun w => (p.1, w)).findSome?
          fun e => (wordLength? legacy e.2 (c :: cs)).map fun n => (e.1, n) := by
  induction ps with
  | nil => rfl
  | cons p ps ih =>
    obtain ⟨hspelled, hname⟩ := hps p List.mem_cons_self
    show ([p] ++ ps).findSome? _ = _
    rw [List.findSome?_append, ih fun q hq => hps q (List.mem_cons_of_mem p hq),
      List.findSome?_singleton, Pattern.length?_of_isNameStart hspelled hname hc,
      List.map_findSome?, List.flatMap_cons, List.findSome?_append, List.findSome?_map]
    rfl

/-- Where a name could begin, the first token is the first reserved word that is recognised there,
and else a name. -/
theorem firstToken_of_isNameStart (hc : isNameStart c = true) :
    firstToken legacy (c :: cs)
      = (reserved.findSome? fun e => (wordLength? legacy e.2 (c :: cs)).map fun n => (e.1, n)).getD
          (.name, ((c :: cs).takeWhile isWordChar).length) := by
  have hname : nameLength? (c :: cs) = some ((c :: cs).takeWhile isWordChar).length := by
    rw [takeWhile_of_isNameStart cs hc]
    exact if_pos hc
  rw [firstToken, patterns_eq, List.findSome?_append, reserved_eq, ← findSome?_words _ hc]
  · cases leading.findSome? fun p => (p.2.length? legacy (c :: cs)).map fun n => (p.1, n) with
    | some found => rfl
    | none => simp [Pattern.length?, hname]
  · decide +kernel

/-- Which of the two it is, without the order of the table. -/
theorem firstToken_cases (legacy : Bool) (cs : List Char) (hc : isNameStart c = true) :
    (∃ e ∈ reserved, Recognised legacy e.2 ((c :: cs).takeWhile isWordChar)
      ∧ firstToken legacy (c :: cs) = (e.1, e.2.length))
    ∨ (∀ e ∈ reserved, ¬ Recognised legacy e.2 ((c :: cs).takeWhile isWordChar))
      ∧ firstToken legacy (c :: cs) = (.name, ((c :: cs).takeWhile isWordChar).length) := by
  rw [firstToken_of_isNameStart hc]
  cases h : reserved.findSome? fun e =>
      (wordLength? legacy e.2 (c :: cs)).map fun n => (e.1, n) with
  | some found =>
    obtain ⟨e, he, hfound⟩ := List.exists_of_findSome?_eq_some h
    obtain ⟨n, hn, rfl⟩ := Option.map_eq_some_iff.1 hfound
    obtain ⟨rfl, hrec⟩ := (wordLength?_eq_some_iff (wordChars_of_mem_reserved e he)).1 hn
    exact Or.inl ⟨e, he, hrec, rfl⟩
  | none =>
    refine Or.inr ⟨fun e he hrec => ?_, rfl⟩
    have hnone := List.findSome?_eq_none_iff.1 h e he
    rw [(wordLength?_eq_some_iff (wordChars_of_mem_reserved e he)).2 ⟨rfl, hrec⟩] at hnone
    cases hnone

/-- By default the first token is the whole run, whatever the table has first. -/
theorem firstToken_default (cs : List Char) (hc : isNameStart c = true) :
    firstToken false (c :: cs)
      = (wordKind ((c :: cs).takeWhile isWordChar), ((c :: cs).takeWhile isWordChar).length) := by
  rcases firstToken_cases false cs hc with ⟨e, he, ⟨-, hlegacy | hrun⟩, hfirst⟩ | ⟨hnone, hfirst⟩
  · cases hlegacy
  · rw [hfirst, ← hrun, wordKind_of_mem_reserved e he]
  · rw [hfirst, wordKind_eq_name]
    rintro e he heq
    exact hnone e he ⟨heq ▸ List.prefix_rfl, Or.inr heq⟩

theorem findSome?_congr {α β : Type} {f g : α → Option β} {l : List α}
    (h : ∀ a ∈ l, f a = g a) : l.findSome? f = l.findSome? g := by
  rw [← List.head?_filterMap, List.filterMap_congr h, List.head?_filterMap]

/-- Where a name could begin, only the run counts. -/
theorem firstToken_takeWhile (legacy : Bool) (cs : List Char) (hc : isNameStart c = true) :
    firstToken legacy ((c :: cs).takeWhile isWordChar) = firstToken legacy (c :: cs) := by
  have hword : ∀ e ∈ reserved, wordLength? legacy e.2 ((c :: cs).takeWhile isWordChar)
      = wordLength? legacy e.2 (c :: cs) := by
    intro e he
    ext n
    rw [wordLength?_eq_some_iff (wordChars_of_mem_reserved e he),
      wordLength?_eq_some_iff (wordChars_of_mem_reserved e he), List.takeWhile_idem]
  have hrun := takeWhile_of_isNameStart cs hc
  rw [firstToken_of_isNameStart hc, hrun, firstToken_of_isNameStart hc, ← hrun, List.takeWhile_idem,
    findSome?_congr fun e he => by rw [hword e he]]

/-! ### Words of a line -/

theorem eq_of_prefix_of_length {a b : List Char} (ha : a <+: cs) (hb : b <+: cs)
    (h : a.length = b.length) : a = b :=
  (List.prefix_of_prefix_length_le ha hb (Nat.le_of_eq h)).eq_of_length h

/-- A beginning of a text that is as long as the run at its start is the run. -/
theorem eq_takeWhile_of_length {p : Char → Bool} {text : List Char}
    (h : text.length = ((text ++ cs).takeWhile p).length) : text = (text ++ cs).takeWhile p :=
  eq_of_prefix_of_length (List.prefix_append text cs) (List.takeWhile_prefix p) h

/-- A run does not end where it could go on. -/
theorem ne_takeWhile_append {p : Char → Bool} {text : List Char} (hc : p c = true) :
    text ≠ (text ++ c :: cs).takeWhile p := by
  intro h
  have htext : ∀ d ∈ text, p d = true := by
    intro d hd
    rw [h] at hd
    exact List.mem_takeWhile_imp hd
  rw [List.takeWhile_append_of_pos htext, List.takeWhile_cons_of_pos hc,
    List.self_eq_append_right] at h
  cases h

/-- By default a token that begins like a name is the run from its place on. -/
theorem Scans.word_eq_run {before after : List Token} {t : Token} {text : List Char}
    (h : Scans false pos cs (before ++ t :: after) rest) (htext : t.text.toList = c :: text)
    (hc : isNameStart c = true) :
    ∃ behind, cs = before.flatMap (·.text.toList) ++ (t.text.toList ++ behind)
      ∧ t.text.toList = (t.text.toList ++ behind).takeWhile isWordChar
      ∧ t.kind = wordKind t.text.toList := by
  obtain ⟨behind, rfl, -, hfirst, -⟩ := h.at_token
  have hwhole := firstToken_default (text ++ behind) hc
  rw [← List.cons_append, ← htext, hfirst, Prod.mk.injEq] at hwhole
  obtain ⟨hkind, hlength⟩ := hwhole
  have hrun := eq_takeWhile_of_length hlength
  rw [← hrun] at hkind
  exact ⟨behind, rfl, hrun, hkind⟩

/-- **Words are cut as long as they can be.**  By default, a token of a line that begins with a
letter or an underscore is the run of word characters from its place on.  Its kind is that of the
keyword or the name of a width if the run is such a word, and a name otherwise.  So a keyword is
never taken out of a longer word: a token that is no name is reserved as a whole run, and the token
right before it is not a word. -/
theorem words_cut_longest (pos : Pos) (line text : List Char) (before after : List Token)
    (t : Token) (c : Char) (h : scanLine false pos line = before ++ t :: after)
    (htext : t.text.toList = c :: text) (hc : isNameStart c = true) :
    ∃ here, line = before.flatMap (·.text.toList) ++ here
      ∧ t.text.toList = here.takeWhile isWordChar
      ∧ t.kind = wordKind t.text.toList
      ∧ (t.kind ≠ .name → (t.kind, here.takeWhile isWordChar) ∈ reserved)
      ∧ ∀ u ∈ before.getLast?, ∀ d ∈ u.text.toList.head?, isNameStart d = false := by
  obtain ⟨rest, hscans⟩ := scanLine_eq_iff.1 h
  obtain ⟨behind, rfl, hrun, hkind⟩ := hscans.word_eq_run htext hc
  refine ⟨_, rfl, hrun, hkind, fun hname => ?_, fun u hu d hd => ?_⟩
  · rw [← hrun, hkind]
    rw [hkind] at hname
    exact mem_reserved_of_wordKind hname
  · -- a word before the token would go on with it
    rw [← Bool.not_eq_true]
    intro hstart
    obtain ⟨front, rfl⟩ := List.getLast?_eq_some_iff.1 hu
    obtain ⟨word, hword⟩ := List.head?_eq_some_iff.1 hd
    rw [List.append_assoc, List.singleton_append] at hscans
    obtain ⟨more, hline, hmore, -⟩ := hscans.word_eq_run hword hstart
    rw [List.flatMap_append, List.append_assoc, List.flatMap_singleton] at hline
    have hbehind := List.append_cancel_left (List.append_cancel_left hline)
    rw [← hbehind, htext] at hmore
    exact ne_takeWhile_append (isWordChar_of_isNameStart hc) hmore

/-- The keyword `do` behind a digit is cut off it, and the name behind that is not taken for
`or`. -/
theorem words_cut_longest_of_order :
    ∃ here, "1do order".toList = "1do ".toList ++ here
      ∧ "order".toList = here.takeWhile isWordChar ∧ Kind.name = wordKind "order".toList := by
  obtain ⟨here, hline, htext, hkind, -⟩ := words_cut_longest ⟨"a.pas", 1⟩ "1do order".toList
    "rder".toList
    [⟨.number, "1", ⟨"a.pas", 1⟩⟩, ⟨.kwDo, "do", ⟨"a.pas", 1⟩⟩, ⟨.blanks, " ", ⟨"a.pas", 1⟩⟩] []
    ⟨.name, "order", ⟨"a.pas", 1⟩⟩ 'o' (by decide +kernel) (by decide +kernel) (by decide)
  exact ⟨here, hline, htext, hkind⟩

/-! ### Legacy keywords -/

theorem wordLength?_of_not_isNameStart (hw : w.head?.any isNameStart = true)
    (hc : isNameStart c = false) : wordLength? legacy w (c :: cs) = none := by
  have hbegin : ¬ w <+: c :: cs := not_prefix_of_head hw hc
  rw [wordLength?, if_neg (by rwa [List.isPrefixOf_iff_prefix])]

/-- The patterns of words. -/
def Pattern.isWord : Pattern → Bool
  | word _ | typeName | name => true
  | _ => false

/-- Where no name could begin, no pattern of words fits. -/
theorem Pattern.length?_of_isWord {pattern : Pattern} (hspelled : pattern.isSpelled = true)
    (hword : pattern.isWord = true) (hc : isNameStart c = false) :
    pattern.length? legacy (c :: cs) = none := by
  cases pattern with
  | word letters =>
    exact wordLength?_of_not_isNameStart (head_of_mem_words hspelled List.mem_cons_self) hc
  | typeName =>
    show Pattern.typeName.words.findSome? (wordLength? legacy · (c :: cs)) = none
    rw [List.findSome?_eq_none_iff]
    intro w hw
    exact wordLength?_of_not_isNameStart (head_of_mem_words hspelled hw) hc
  | name =>
    have hstart : ¬ (c == '_' || isLetter c) = true := Bool.eq_false_iff.1 hc
    exact if_neg hstart
  | sign | number | text | blanks | comment => cases hword

theorem Pattern.length?_of_not_isNameStart {pattern : Pattern} (hspelled : pattern.isSpelled = true)
    (hc : isNameStart c = false) :
    pattern.length? legacy (c :: cs) = pattern.length? false (c :: cs) := by
  cases hword : pattern.isWord with
  | true => rw [length?_of_isWord hspelled hword hc, length?_of_isWord hspelled hword hc]
  | false =>
    cases pattern with
    | word | typeName | name => cases hword
    | sign | number | text | blanks | comment => rfl

/-- Where no name could begin, both modes have the same token. -/
theorem firstToken_of_not_isNameStart (hc : isNameStart c = false) :
    firstToken legacy (c :: cs) = firstToken false (c :: cs) := by
  rw [firstToken, firstToken, findSome?_congr fun p hp => by
    rw [Pattern.length?_of_not_isNameStart (isSpelled_of_mem_patterns p hp) hc]]

/-- Legacy keywords leave the first token as it is, unless it is a name that begins with a reserved
word. -/
theorem firstToken_legacy_iff {text : List Char} (hne : text ++ cs ≠ [])
    (h : firstToken false (text ++ cs) = (kind, text.length)) :
    firstToken true (text ++ cs) = (kind, text.length)
      ↔ (kind = .name → ∀ e ∈ reserved, ¬ (e.2 <+: text ∧ e.2 ≠ text)) := by
  obtain ⟨c, text, rfl⟩ := List.exists_cons_of_length_pos (cut_of_firstToken hne h).pos
  cases hc : isNameStart c with
  | false =>
    rw [List.cons_append, firstToken_of_not_isNameStart hc]
    refine iff_of_true h fun _ e he hbegin => ?_
    exact not_prefix_of_head (head_of_mem_reserved e he) hc hbegin.1
  | true =>
    have hdefault := firstToken_default (text ++ cs) hc
    rw [← List.cons_append, h, Prod.mk.injEq] at hdefault
    obtain ⟨rfl, hlength⟩ := hdefault
    have hrun := eq_takeWhile_of_length hlength
    rw [← hrun]
    by_cases hmem : ∃ e ∈ reserved, e.2 = c :: text
    · -- a reserved word is the first of the table that begins it
      obtain ⟨e, he, heq⟩ := hmem
      have hkind := wordKind_of_mem_reserved e he
      have hfirst := firstToken_of_mem_reserved true e he
      rw [heq] at hkind hfirst
      rw [List.cons_append, ← firstToken_takeWhile true _ hc, ← List.cons_append, ← hrun, hfirst,
        hkind]
      exact iff_of_true rfl fun hname => absurd hname (kind_ne_name_of_mem_reserved e he)
    · have hname : wordKind (c :: text) = .name :=
        wordKind_eq_name fun e he heq => hmem ⟨e, he, heq⟩
      rw [hname]
      rcases firstToken_cases true (text ++ cs) hc with ⟨e, he, hrec, hfirst⟩ | ⟨hnone, hfirst⟩
      · rw [← List.cons_append, ← hrun] at hrec
        rw [List.cons_append, hfirst]
        refine iff_of_false ?_ fun hplain => ?_
        · intro heq
          exact kind_ne_name_of_mem_reserved e he (Prod.mk.inj heq).1
        · exact hplain rfl e he ⟨hrec.1, fun heq => hmem ⟨e, he, heq⟩⟩
      · rw [← List.cons_append, ← hrun] at hnone
        rw [List.cons_append, hfirst, ← List.cons_append, ← hrun]
        exact iff_of_true rfl fun _ e he hbegin => hnone e he ⟨hbegin.1, Or.inl rfl⟩

theorem Scans.legacy_iff (h : Scans false pos cs ts rest) :
    (∃ rest, Scans true pos cs ts rest)
      ↔ ∀ t ∈ ts, t.kind = .name →
          ∀ e ∈ reserved, ¬ (e.2 <+: t.text.toList ∧ e.2 ≠ t.text.toList) := by
  induction h with
  | done rest hblank => exact iff_of_true ⟨rest, .done rest hblank⟩ nofun
  | token kind text cs ts rest hblank hfirst hscans ih =>
    have hne := ne_nil_of_not_blank hblank
    rw [List.forall_mem_cons, String.toList_ofList, ← firstToken_legacy_iff hne hfirst, ← ih]
    constructor
    · rintro ⟨last, hlast⟩
      obtain ⟨after, happend, -, hlegacy, -, hafter⟩ := scans_cons_iff.1 hlast
      rw [String.toList_ofList] at happend hlegacy
      obtain rfl := List.append_cancel_left happend
      exact ⟨hlegacy, last, hafter⟩
    · rintro ⟨hlegacy, last, hlast⟩
      exact ⟨last, .token kind text cs ts last hblank hlegacy hlast⟩

/-- **Where legacy keywords make a difference.**  The tokens of a line in legacy mode are its tokens
by default just if no name among these has a keyword or the name of a width as a proper
beginning. -/
theorem modes_agree_iff (pos : Pos) (line : List Char) :
    scanLine true pos line = scanLine false pos line
      ↔ ∀ t ∈ scanLine false pos line, t.kind = .name →
          ∀ e ∈ reserved, ¬ (e.2 <+: t.text.toList ∧ e.2 ≠ t.text.toList) := by
  obtain ⟨rest, h⟩ := scanLine_eq_iff.1 (rfl : scanLine false pos line = _)
  rw [scanLine_eq_iff, h.legacy_iff]

example : scanLine true ⟨"a.pas", 1⟩ "downto 1do".toList
      = scanLine false ⟨"a.pas", 1⟩ "downto 1do".toList
    ∧ scanLine true ⟨"a.pas", 1⟩ "order".toList ≠ scanLine false ⟨"a.pas", 1⟩ "order".toList := by
  decide +kernel

end NibblePascal
