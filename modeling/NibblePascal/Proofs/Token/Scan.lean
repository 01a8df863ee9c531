import NibblePascal.Token.Line

/-!
# Cutting a line into tokens

The tokens of a line are pieces of it, one after the other, and all that is left out are blanks at
its end.

* `Cut n cs`: the text `cs` can be cut after `n` characters, and these are not none.  Every pattern
  gives such a cut, `Pattern.cut_of_length?`, and so does `firstToken`;
* `Scans legacy pos cs ts rest`: tokens are taken from `cs` as long as it is not blank, which gives
  `ts` and ends at `rest`.  A line has no more tokens than characters, and so the bound on their
  number in `scanLine` is never met before the end, `scanLine_eq_iff`;
* `Scans.at_token`: each token is the first one of what is left behind those before it.
-/

namespace NibblePascal

/-- A text can be cut after `n` characters, at least one. -/
structure Cut (n : Nat) (cs : List Char) : Prop where
  pos : 0 < n
  le : n ≤ cs.length

/-! ### Patterns -/

variable {legacy : Bool} {pos : Pos} {letters cs rest : List Char} {n : Nat}

theorem cut_of_isPrefixOf (hne : letters ≠ []) (h : letters.isPrefixOf cs = true) :
    Cut letters.length cs :=
  ⟨List.length_pos_iff.2 hne, (List.isPrefixOf_iff_prefix.1 h).length_le⟩

theorem length_takeWhile_le (p : Char → Bool) (cs : List Char) :
    (cs.takeWhile p).length ≤ cs.length :=
  (List.takeWhile_prefix p).length_le

/-- A character and those after it that pass a test. -/
theorem cut_takeWhile (p : Char → Bool) (c : Char) (cs : List Char) :
    Cut ((cs.takeWhile p).length + 1) (c :: cs) :=
  ⟨Nat.succ_pos _, Nat.succ_le_succ (length_takeWhile_le p cs)⟩

theorem cut_of_wordLength? (hne : letters ≠ []) (h : wordLength? legacy letters cs = some n) :
    Cut n cs := by
  unfold wordLength? at h
  split at h
  · rename_i hprefix
    have hn : n = letters.length := by
      split at h
      · split at h
        · cases h
        · exact (Option.some.inj h).symm
      · exact (Option.some.inj h).symm
    exact hn ▸ cut_of_isPrefixOf hne hprefix
  · cases h

theorem cut_of_markedLength? {p : Char → Bool} {c : Char} (h : markedLength? p cs = some n) :
    Cut n (c :: cs) := by
  have hle := length_takeWhile_le p cs
  unfold markedLength? at h
  split at h
  · cases h
  · rename_i m hm
    cases h
    exact ⟨by omega, by rw [List.length_cons]; omega⟩

theorem cut_of_numberLength? (h : numberLength? cs = some n) : Cut n cs := by
  unfold numberLength? at h
  split at h
  · cases h
  rename_i c cs
  split at h
  · cases h
    exact cut_takeWhile isDigit c cs
  split at h
  · exact cut_of_markedLength? h
  split at h
  · exact cut_of_markedLength? h
  split at h
  · -- a quote, a character and a quote
    split at h
    · split at h
      · cases h
      · cases h
        exact ⟨by omega, by simp⟩
    · cases h
  · cases h

theorem cut_of_quotedLength? (h : quotedLength? cs = some n) : Cut n cs := by
  unfold quotedLength? at h
  split at h
  · obtain ⟨i, hi, rfl⟩ := Option.map_eq_some_iff.1 h
    obtain ⟨hlt, -⟩ := List.findIdx?_eq_some_iff_getElem.1 hi
    exact ⟨by omega, by rw [List.length_cons]; omega⟩
  · cases h

theorem cut_of_nameLength? (h : nameLength? cs = some n) : Cut n cs := by
  unfold nameLength? at h
  split at h
  · rename_i c cs
    split at h
    · cases h
      exact cut_takeWhile isWordChar c cs
    · cases h
  · cases h

theorem cut_of_blanksLength? (h : blanksLength? cs = some n) : Cut n cs := by
  have hle := length_takeWhile_le (fun c => c == ' ' || c == '\t') cs
  unfold blanksLength? at h
  split at h
  · cases h
  · cases h
    exact ⟨by omega, by omega⟩

/-- The words and signs of a pattern are not empty. -/
def Pattern.IsProper : Pattern → Prop
  | word letters => letters ≠ []
  | sign chars => chars ≠ []
  | _ => True

theorem isProper_of_mem_patterns {p : Kind × Pattern} (h : p ∈ patterns) : p.2.IsProper := by
  revert p
  simp [patterns, Pattern.IsProper]

theorem Pattern.cut_of_length? {pattern : Pattern} (hproper : pattern.IsProper)
    (h : pattern.length? legacy cs = some n) : Cut n cs := by
  cases pattern with
  | word letters => exact cut_of_wordLength? hproper h
  | sign chars =>
    rw [Pattern.length?] at h
    split at h
    · cases h
      exact cut_of_isPrefixOf hproper ‹_›
    · cases h
  | typeName =>
    obtain ⟨w, hw, h⟩ := List.exists_of_findSome?_eq_some h
    refine cut_of_wordLength? ?_ h
    simp only [List.mem_cons, List.not_mem_nil, or_false] at hw
    rcases hw with rfl | rfl | rfl <;> decide
  | number => exact cut_of_numberLength? h
  | text => exact cut_of_quotedLength? h
  | name => exact cut_of_nameLength? h
  | blanks => exact cut_of_blanksLength? h
  | comment =>
    rw [Pattern.length?] at h
    split at h
    · rename_i hprefix
      cases h
      have hle := (cut_of_isPrefixOf (by decide) hprefix).le
      exact ⟨by simp at hle; omega, Nat.le_refl _⟩
    · cases h

/-- The first token of a text comes from a pattern that fits while none before it in the table does,
unless it is an unknown character. -/
theorem firstToken_eq_iff {kind : Kind} (hkind : kind ≠ .unknown) :
    firstToken legacy cs = (kind, n)
      ↔ ∃ earlier p later, patterns = earlier ++ p :: later ∧ p.1 = kind
        ∧ p.2.length? legacy cs = some n ∧ ∀ q ∈ earlier, q.2.length? legacy cs = none := by
  constructor
  · intro h
    unfold firstToken at h
    split at h
    · rename_i found hfound
      obtain ⟨earlier, p, later, htable, hlength, hnone⟩ := List.findSome?_eq_some_iff.1 hfound
      obtain ⟨m, hm, rfl⟩ := Option.map_eq_some_iff.1 hlength
      cases h
      exact ⟨earlier, p, later, htable, rfl, hm, fun q hq => Option.map_eq_none_iff.1 (hnone q hq)⟩
    · cases h
      exact absurd rfl hkind
  · rintro ⟨earlier, p, later, htable, rfl, hn, hnone⟩
    have hfound : patterns.findSome? (fun p => (p.2.length? legacy cs).map fun n => (p.1, n))
        = some (p.1, n) :=
      List.findSome?_eq_some_iff.2 ⟨earlier, p, later, htable, by rw [hn]; rfl,
        fun q hq => Option.map_eq_none_iff.2 (hnone q hq)⟩
    rw [firstToken, hfound]

theorem mem_patterns_of_eq {earlier later : List (Kind × Pattern)} {p : Kind × Pattern}
    (h : patterns = earlier ++ p :: later) : p ∈ patterns := by
  rw [h]
  exact List.mem_append_right earlier List.mem_cons_self

/-- The first token of a text is cut off it, also where no pattern fits. -/
theorem cut_of_firstToken {kind : Kind} (hne : cs ≠ [])
    (h : firstToken legacy cs = (kind, n)) : Cut n cs := by
  unfold firstToken at h
  split at h
  · rename_i found hfound
    obtain ⟨p, hp, hlength⟩ := List.exists_of_findSome?_eq_some hfound
    obtain ⟨m, hm, rfl⟩ := Option.map_eq_some_iff.1 hlength
    cases h
    exact p.2.cut_of_length? (isProper_of_mem_patterns hp) hm
  · cases h
    exact ⟨Nat.one_pos, List.length_pos_iff.2 hne⟩

/-! ### Scanning -/

/-- Tokens are taken from a text as long as it is not blank. -/
inductive Scans (legacy : Bool) (pos : Pos) : List Char → List Token → List Char → Prop
  | done (rest : List Char) (hblank : isBlankText rest = true) : Scans legacy pos rest [] rest
  | token (kind : Kind) (text cs : List Char) (ts : List Token) (rest : List Char)
      (hblank : isBlankText (text ++ cs) = false)
      (hfirst : firstToken legacy (text ++ cs) = (kind, text.length))
      (hscans : Scans legacy pos cs ts rest) :
      Scans legacy pos (text ++ cs) (⟨kind, String.ofList text, pos⟩ :: ts) rest

variable {kind : Kind} {ts : List Token} {count : Nat}

theorem ne_nil_of_not_blank (h : isBlankText cs = false) : cs ≠ [] := by
  rintro rfl
  cases h

theorem scan_of_blank (h : isBlankText cs = true) : scan legacy pos count cs = [] := by
  cases count with
  | zero => rfl
  | succ count => rw [scan, if_pos h]

theorem scan_succ (hblank : isBlankText cs = false) (hfirst : firstToken legacy cs = (kind, n)) :
    scan legacy pos (count + 1) cs
      = ⟨kind, String.ofList (cs.take n), pos⟩ :: scan legacy pos count (cs.drop n) := by
  rw [scan, if_neg (by rw [hblank]; exact Bool.false_ne_true), hfirst]

/-- As many tokens as there are characters are enough. -/
theorem exists_scans_scan (legacy : Bool) (pos : Pos) (cs : List Char) (h : cs.length ≤ count) :
    ∃ rest, Scans legacy pos cs (scan legacy pos count cs) rest := by
  induction count generalizing cs with
  | zero =>
    obtain rfl := List.eq_nil_of_length_eq_zero (Nat.le_zero.1 h)
    exact ⟨[], .done [] rfl⟩
  | succ count ih =>
    cases hblank : isBlankText cs with
    | true => exact ⟨cs, by rw [scan_of_blank hblank]; exact .done cs hblank⟩
    | false =>
      rcases hfirst : firstToken legacy cs with ⟨kind, n⟩
      obtain ⟨hpos, hle⟩ := cut_of_firstToken (ne_nil_of_not_blank hblank) hfirst
      obtain ⟨text, after, rfl, rfl⟩ : ∃ text after, cs = text ++ after ∧ n = text.length :=
        ⟨cs.take n, cs.drop n, (List.take_append_drop n cs).symm, (List.length_take_of_le hle).symm⟩
      rw [List.length_append] at h
      -- what follows the token is shorter, and so one token less is enough for it
      obtain ⟨rest, hrest⟩ := ih after (by omega)
      rw [scan_succ hblank hfirst, List.take_left, List.drop_left]
      exact ⟨rest, .token kind text after _ rest hblank hfirst hrest⟩

/-- The tokens are determined by the text. -/
theorem Scans.scan_eq (h : Scans legacy pos cs ts rest) (hcount : cs.length ≤ count) :
    scan legacy pos count cs = ts := by
  induction h generalizing count with
  | done rest hblank => exact scan_of_blank hblank
  | token kind text cs ts rest hblank hfirst hscans ih =>
    have hpos := (cut_of_firstToken (ne_nil_of_not_blank hblank) hfirst).pos
    rw [List.length_append] at hcount
    obtain ⟨count, rfl⟩ : ∃ k, count = k + 1 := ⟨count - 1, by omega⟩
    rw [scan_succ hblank hfirst, List.take_left, List.drop_left, ih (by omega)]

theorem scanLine_eq_iff :
    scanLine legacy pos cs = ts ↔ ∃ rest, Scans legacy pos cs ts rest := by
  constructor
  · rintro rfl
    exact exists_scans_scan legacy pos cs (Nat.le_refl _)
  · rintro ⟨rest, h⟩
    exact h.scan_eq (Nat.le_refl _)

/-- The first token of a text, and the tokens behind it. -/
theorem scans_cons_iff {t : Token} : Scans legacy pos cs (t :: ts) rest
    ↔ ∃ after, cs = t.text.toList ++ after ∧ isBlankText cs = false
      ∧ firstToken legacy cs = (t.kind, t.text.toList.length) ∧ t.pos = pos
      ∧ Scans legacy pos after ts rest := by
  constructor
  · rintro (_ | ⟨kind, text, after, _, _, hblank, hfirst, hscans⟩)
    rw [String.toList_ofList]
    exact ⟨after, rfl, hblank, hfirst, rfl, hscans⟩
  · rintro ⟨after, rfl, hblank, hfirst, rfl, hscans⟩
    have h := Scans.token t.kind t.text.toList after ts rest hblank hfirst hscans
    rwa [String.ofList_toList] at h

/-- A token of a text stands behind the tokens before it and is the first of what is left. -/
theorem Scans.at_token {before after : List Token} {t : Token}
    (h : Scans legacy pos cs (before ++ t :: after) rest) :
    ∃ here, cs = before.flatMap (·.text.toList) ++ (t.text.toList ++ here)
      ∧ isBlankText (t.text.toList ++ here) = false
      ∧ firstToken legacy (t.text.toList ++ here) = (t.kind, t.text.toList.length)
      ∧ t.pos = pos := by
  induction before generalizing cs with
  | nil =>
    obtain ⟨here, rfl, hblank, hfirst, hpos, -⟩ := scans_cons_iff.1 h
    exact ⟨here, rfl, hblank, hfirst, hpos⟩
  | cons u before ih =>
    obtain ⟨_, rfl, -, -, -, hscans⟩ := scans_cons_iff.1 h
    obtain ⟨here, rfl, hhere⟩ := ih hscans
    exact ⟨here, by rw [List.flatMap_cons, List.append_assoc], hhere⟩

/-! ### Nothing is lost -/

theorem Scans.text_ne (h : Scans legacy pos cs ts rest) : ∀ t ∈ ts, t.text ≠ "" := by
  induction h with
  | done => simp
  | token kind text cs ts rest hblank hfirst hscans ih =>
    have hpos := (cut_of_firstToken (ne_nil_of_not_blank hblank) hfirst).pos
    rintro t (_ | ⟨_, ht⟩)
    · show String.ofList text ≠ ""
      rw [Ne, String.ofList_eq_empty_iff]
      exact List.length_pos_iff.1 hpos
    · exact ih t ht

/-- The texts of the tokens, one after the other, and the rest make up the text. -/
theorem Scans.append_eq (h : Scans legacy pos cs ts rest) :
    ts.flatMap (·.text.toList) ++ rest = cs := by
  induction h with
  | done => rfl
  | token kind text cs ts rest hblank hfirst hscans ih =>
    rw [List.flatMap_cons, List.append_assoc, ih, String.toList_ofList]

theorem Scans.isBlank_rest (h : Scans legacy pos cs ts rest) : ∀ c ∈ rest, isBlank c = true := by
  induction h with
  | done rest hblank => exact List.all_eq_true.1 hblank
  | token kind text cs ts rest hblank hfirst hscans ih => exact ih

/-- **A line is cut without loss.**  In either keyword mode, taking tokens from a line comes to an
end, at a rest of blanks; no token is empty; and the texts of the tokens, one after the other, with
the rest behind them are the line. -/
theorem scanLine_lossless (legacy : Bool) (pos : Pos) (line : List Char) :
    ∃ rest, Scans legacy pos line (scanLine legacy pos line) rest
      ∧ (∀ t ∈ scanLine legacy pos line, t.text ≠ "")
      ∧ (scanLine legacy pos line).flatMap (·.text.toList) ++ rest = line
      ∧ ∀ c ∈ rest, isBlank c = true := by
  obtain ⟨rest, h⟩ := scanLine_eq_iff.1 (rfl : scanLine legacy pos line = _)
  exact ⟨rest, h, h.text_ne, h.append_eq, h.isBlank_rest⟩

end NibblePascal
