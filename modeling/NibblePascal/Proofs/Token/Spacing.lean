import NibblePascal.Proofs.Token.Numerals

/-!
# Spacing

Whether two pieces of a line are one token or two depends on what stands between them.  With a space
or a tab behind it, though, a token stays what it was.

* `Separated cs`: nothing follows, or a space or a tab;
* `Solid legacy kind text`: the text is a token of the kind wherever it stands apart.  So is the
  text of every token that is neither a comment nor blanks nor an unknown character,
  `solid_of_firstToken`;
* `Spread texts cs`: the texts stand in `cs` with spaces and tabs between them.
-/

namespace NibblePascal

variable {legacy : Bool} {pos : Pos} {cs rest text body letters : List Char} {c : Char} {n : Nat}
  {kind : Kind} {pattern : Pattern}

/-- Nothing follows, or a space or a tab. -/
def Separated (cs : List Char) : Prop := ∀ c ∈ cs.head?, c = ' ' ∨ c = '\t'

theorem Separated.head_eq_false {p : Char → Bool} (h : Separated cs) (hspace : p ' ' = false)
    (htab : p '\t' = false) : ∀ c ∈ cs.head?, p c = false := by
  intro c hc
  rcases h c hc with rfl | rfl
  · exact hspace
  · exact htab

/-! ### The table -/

/-- Signs hold no blanks and no quotes. -/
def Pattern.isTight : Pattern → Bool
  | sign chars => chars.all fun c => !isBlank c && c != '\''
  | _ => true

theorem isTight_of_mem_patterns : ∀ p ∈ patterns, p.2.isTight = true := by decide +kernel

theorem isBlank_eq_false (hlow : 33 ≤ c.toNat) (hhigh : c.toNat ≤ 132) : isBlank c = false := by
  have hranges : blankRanges
      = (0x9, 0xD) :: (0x20, 0x20) :: (0x85, 0x85) :: blankRanges.drop 3 := rfl
  rw [isBlank, hranges]
  simp only [inRanges]
  rw [if_pos (by omega), if_pos (by omega), if_neg (by omega), decide_eq_false_iff_not]
  omega

theorem isBlank_of_isNameStart (h : isNameStart c = true) : isBlank c = false := by
  rw [isNameStart_iff] at h
  exact isBlank_eq_false (by omega) (by omega)

theorem prefix_of_sign {chars : List Char} (h : (Pattern.sign chars).length? legacy cs = some n) :
    chars <+: cs ∧ n = chars.length := by
  rw [Pattern.length?] at h
  split at h
  · rename_i hbegin
    exact ⟨List.isPrefixOf_iff_prefix.1 hbegin, (Option.some.inj h).symm⟩
  · cases h

theorem text_of_sign {chars : List Char}
    (h : (Pattern.sign chars).length? legacy (text ++ cs) = some text.length) : text = chars := by
  obtain ⟨hbegin, hlength⟩ := prefix_of_sign h
  exact eq_of_prefix_of_length (List.prefix_append text cs) hbegin hlength

theorem isBlank_of_isTight {chars : List Char} (h : (Pattern.sign chars).isTight = true) :
    ∀ c ∈ chars, isBlank c = false := by
  intro c hc
  have htight := List.all_eq_true.1 h c hc
  rw [Bool.and_eq_true, Bool.not_eq_true'] at htight
  exact htight.1

/-- No pattern but that of blanks fits where a blank stands. -/
theorem Pattern.isBlank_eq_false_of_length? (hspelled : pattern.isSpelled = true)
    (htight : pattern.isTight = true) (hblanks : pattern ≠ .blanks)
    (h : pattern.length? legacy (c :: cs) = some n) : isBlank c = false := by
  cases hc : isNameStart c with
  | true => exact isBlank_of_isNameStart hc
  | false =>
    cases pattern with
    | word | typeName | name =>
      rw [length?_of_isWord hspelled rfl hc] at h
      cases h
    | sign chars =>
      cases chars with
      | nil => cases hspelled
      | cons d chars =>
        obtain ⟨rfl, -⟩ := List.cons_prefix_cons.1 (prefix_of_sign h).1
        exact isBlank_of_isTight htight d List.mem_cons_self
    | number =>
      rcases numberStart_cases c with hc | rfl | rfl | rfl | hnone
      · rw [isDigit_iff] at hc
        exact isBlank_eq_false (by omega) (by omega)
      · decide
      · decide
      · decide
      · rw [length?, hnone] at h
        cases h
    | text =>
      by_cases hquote : c = '\''
      · subst hquote
        decide
      · rw [length?, quotedLength?_of_ne hquote] at h
        cases h
    | blanks => exact absurd rfl hblanks
    | comment =>
      rw [length?] at h
      split at h
      · rename_i hbegin
        obtain ⟨rfl, -⟩ := List.cons_prefix_cons.1 (List.isPrefixOf_iff_prefix.1 hbegin)
        decide
      · cases h

/-! ### What follows -/

/-- A text without blanks that is found before a gap ends before the gap. -/
theorem prefix_of_separated (hletters : ∀ c ∈ letters, isBlank c = false) (hrest : Separated rest)
    (h : letters <+: text ++ rest) : letters <+: text := by
  rcases List.prefix_or_prefix_of_prefix h (List.prefix_append text rest) with hle | ⟨more, rfl⟩
  · exact hle
  · rw [List.prefix_append_right_inj] at h
    cases more with
    | nil => simp
    | cons c more =>
      obtain ⟨after, rfl⟩ := h
      have hc := hletters c (List.mem_append_right _ List.mem_cons_self)
      rcases hrest c rfl with rfl | rfl
      · cases hc
      · cases hc

theorem markedLength?_eq_none_iff {isDigitOf : Char → Bool} :
    markedLength? isDigitOf cs = none ↔ ∀ c ∈ cs.head?, isDigitOf c = false := by
  unfold markedLength?
  cases cs with
  | nil => simp
  | cons c cs =>
    cases hc : isDigitOf c with
    | false => simp [hc]
    | true => simp [hc]

/-- Whether a quoted text is a number does not depend on what follows it. -/
theorem numberLength?_closed (body cs rest : List Char) :
    numberLength? ('\'' :: (body ++ ['\''] ++ rest))
      = numberLength? ('\'' :: (body ++ ['\''] ++ cs)) := by
  have hempty : ∀ rest, numberLength? ('\'' :: '\'' :: rest) = none := by
    intro rest
    cases rest with
    | nil => rfl
    | cons b rest => rw [numberLength?_quote, if_neg fun h => h.2 rfl]
  -- the two characters behind the quote decide
  rcases body with _ | ⟨a, _ | ⟨b, body⟩⟩
  · exact (hempty rest).trans (hempty cs).symm
  · exact (numberLength?_quote a '\'' rest).trans (numberLength?_quote a '\'' cs).symm
  · exact (numberLength?_quote a b _).trans (numberLength?_quote a b _).symm

theorem quotedLength?_closed (body cs rest : List Char) :
    quotedLength? ('\'' :: (body ++ ['\''] ++ rest))
      = quotedLength? ('\'' :: (body ++ ['\''] ++ cs)) := by
  have hclosed : ∀ rest, quotedLength? ('\'' :: (body ++ ['\''] ++ rest))
      = ((body ++ ['\'']).findIdx? (· == '\'')).map (· + 2) := by
    intro rest
    show ((body ++ ['\''] ++ rest).findIdx? (· == '\'')).map (· + 2) = _
    rw [List.findIdx?_append, List.findIdx?_append]
    cases body.findIdx? (· == '\'') with
    | none => rfl
    | some i => rfl
  exact (hclosed rest).trans (hclosed cs).symm

/-- The text that the pattern of quoted texts takes is closed. -/
theorem closed_of_quotedLength? (h : quotedLength? (text ++ cs) = some text.length) :
    ∃ body, text = '\'' :: (body ++ ['\'']) := by
  obtain ⟨c, text, rfl⟩ := List.exists_cons_of_length_pos (cut_of_quotedLength? h).pos
  by_cases hc : c = '\''
  · subst hc
    obtain ⟨i, hi, hlength⟩ := Option.map_eq_some_iff.1 h
    obtain ⟨hlt, hquote, -⟩ := List.findIdx?_eq_some_iff_getElem.1 hi
    rcases List.eq_nil_or_concat text with rfl | ⟨body, d, rfl⟩
    · cases hlength
    · obtain rfl : i = body.length := by simpa using hlength
      simp at hquote
      exact ⟨body, by rw [hquote, List.concat_eq_append]⟩
  · rw [List.cons_append, quotedLength?_of_ne hc] at h
    cases h

/-- A token that begins with a quote ends with one. -/
theorem closed_of_length? (htight : pattern.isTight = true) (hcomment : pattern ≠ .comment)
    (hblanks : pattern ≠ .blanks) (hword : pattern.isWord = false)
    (h : pattern.length? legacy (text ++ cs) = some text.length) (hhead : text.head? = some '\'') :
    ∃ body, text = '\'' :: (body ++ ['\'']) := by
  cases pattern with
  | word | typeName | name => cases hword
  | sign chars =>
    obtain rfl := text_of_sign h
    have hquote := List.all_eq_true.1 htight '\'' (List.mem_of_mem_head? hhead)
    cases hquote
  | number =>
    obtain ⟨value, most, hnumeral⟩ := numeral_of_numberLength? h
    cases hnumeral with
    | decimal digits hne hdigits => cases hdigits '\'' (List.mem_of_mem_head? hhead)
    | hexadecimal | binary => cases hhead
    | quoted c hc => exact ⟨[c], rfl⟩
  | text => exact closed_of_quotedLength? h
  | blanks => exact absurd rfl hblanks
  | comment => exact absurd rfl hcomment

/-- A pattern that takes a text still takes it with a gap behind it. -/
theorem Pattern.length?_apart (hcomment : pattern ≠ .comment)
    (hblanks : pattern ≠ .blanks) (hword : pattern.isWord = false) (hrest : Separated rest)
    (h : pattern.length? legacy (text ++ cs) = some text.length) :
    pattern.length? legacy (text ++ rest) = some text.length := by
  cases pattern with
  | word | typeName | name => cases hword
  | sign chars =>
    obtain rfl := text_of_sign h
    rw [length?, if_pos (List.isPrefixOf_iff_prefix.2 (List.prefix_append text rest))]
  | number =>
    obtain ⟨value, most, hnumeral⟩ := numeral_of_numberLength? h
    exact hnumeral.numberLength?_append (hrest.head_eq_false (by decide) (by decide))
  | text =>
    obtain ⟨body, rfl⟩ := closed_of_quotedLength? h
    exact (quotedLength?_closed body cs rest).trans h
  | blanks => exact absurd rfl hblanks
  | comment => exact absurd rfl hcomment

theorem markedLength?_eq_none_apart {isDigitOf : Char → Bool} (hspace : isDigitOf ' ' = false)
    (htab : isDigitOf '\t' = false) (hrest : Separated rest)
    (h : markedLength? isDigitOf (text ++ cs) = none) :
    markedLength? isDigitOf (text ++ rest) = none := by
  rw [markedLength?_eq_none_iff] at h ⊢
  cases text with
  | nil => exact hrest.head_eq_false hspace htab
  | cons c text => exact h

/-- A pattern that does not fit a token does not fit it with a gap behind it either. -/
theorem Pattern.length?_eq_none_apart (hspelled : pattern.isSpelled = true)
    (htight : pattern.isTight = true) (hc : isNameStart c = false)
    (hclosed : c = '\'' → ∃ body, text = body ++ ['\'']) (hrest : Separated rest)
    (h : pattern.length? legacy (c :: (text ++ cs)) = none) :
    pattern.length? legacy (c :: (text ++ rest)) = none := by
  have hfixed : ∀ chars : List Char, (∀ c ∈ chars, isBlank c = false) →
      ¬ chars <+: c :: (text ++ cs) → ¬ chars <+: c :: (text ++ rest) := by
    intro chars hchars hnot hbegin
    have hinside : chars <+: c :: text := prefix_of_separated hchars hrest hbegin
    exact hnot (hinside.trans (List.prefix_append (c :: text) cs))
  cases pattern with
  | word | typeName | name => exact length?_of_isWord hspelled rfl hc
  | sign chars =>
    exact sign_eq_none_iff.2 (hfixed chars (isBlank_of_isTight htight) (sign_eq_none_iff.1 h))
  | number =>
    rcases numberStart_cases c with hdigit | rfl | rfl | rfl | hnone
    · rw [length?, numberLength?_of_isDigit _ hdigit] at h
      cases h
    · exact markedLength?_eq_none_apart (by decide) (by decide) hrest h
    · exact markedLength?_eq_none_apart (by decide) (by decide) hrest h
    · obtain ⟨body, rfl⟩ := hclosed rfl
      exact (numberLength?_closed body cs rest).trans h
    · exact hnone _
  | text =>
    by_cases hquote : c = '\''
    · subst hquote
      obtain ⟨body, rfl⟩ := hclosed rfl
      exact (quotedLength?_closed body cs rest).trans h
    · exact quotedLength?_of_ne hquote
  | blanks => exact blanksLength?_eq_none_iff.2 (blanksLength?_eq_none_iff.1 h)
  | comment =>
    have hslashes : ∀ c ∈ ['/', '/'], isBlank c = false := by
      intro c hc
      obtain rfl : c = '/' := by simpa using hc
      decide
    exact comment_eq_none_iff.2 (hfixed ['/', '/'] hslashes (comment_eq_none_iff.1 h))

/-! ### Tokens that stand apart -/

/-- A text that is a token of a kind wherever it stands apart, and that begins with no blank. -/
structure Solid (legacy : Bool) (kind : Kind) (text : List Char) : Prop where
  starts : ∃ c behind, text = c :: behind ∧ isBlank c = false
  first : ∀ rest, Separated rest → firstToken legacy (text ++ rest) = (kind, text.length)

/-- A word is a token by itself: a reserved word of its kind, and else the whole run as a name. -/
theorem firstToken_word (hc : isNameStart c = true)
    (h : firstToken legacy (c :: text ++ cs) = (kind, (c :: text).length)) :
    (∀ d ∈ c :: text, isWordChar d = true)
      ∧ firstToken legacy (c :: text) = (kind, (c :: text).length) := by
  rcases firstToken_cases legacy (text ++ cs) hc with ⟨e, he, hrec, hfirst⟩ | ⟨-, hfirst⟩
  · rw [← List.cons_append, h, Prod.mk.injEq] at hfirst
    obtain ⟨rfl, hlength⟩ := hfirst
    have htext : c :: text = e.2 := eq_of_prefix_of_length (List.prefix_append (c :: text) cs)
      (hrec.1.trans (List.takeWhile_prefix _)) hlength
    rw [htext]
    exact ⟨wordChars_of_mem_reserved e he, firstToken_of_mem_reserved legacy e he⟩
  · rw [← List.cons_append, h, Prod.mk.injEq] at hfirst
    have htext : c :: text = (c :: text ++ cs).takeWhile isWordChar :=
      eq_takeWhile_of_length hfirst.2
    constructor
    · intro d hd
      rw [htext] at hd
      exact List.mem_takeWhile_imp hd
    · have hwhole := firstToken_takeWhile legacy (text ++ cs) hc
      rwa [← List.cons_append, ← htext, h] at hwhole

theorem first_of_isNameStart (hc : isNameStart c = true) (hrest : Separated rest)
    (h : firstToken legacy (c :: text ++ cs) = (kind, (c :: text).length)) :
    firstToken legacy (c :: text ++ rest) = (kind, (c :: text).length) := by
  obtain ⟨hchars, hsingle⟩ := firstToken_word hc h
  have hrun : (c :: text ++ rest).takeWhile isWordChar = c :: text :=
    takeWhile_append_of_head hchars (hrest.head_eq_false (by decide) (by decide))
  rw [List.cons_append, ← firstToken_takeWhile legacy _ hc, ← List.cons_append, hrun, hsingle]

/-- The pattern of a token that counts. -/
theorem exists_pattern (hunknown : kind ≠ .unknown) (hcomment : kind ≠ .comment)
    (hblanks : kind ≠ .blanks) (h : firstToken legacy cs = (kind, n)) :
    ∃ earlier p later, patterns = earlier ++ p :: later ∧ p.1 = kind ∧ p.2 ≠ .comment
      ∧ p.2 ≠ .blanks ∧ p.2.length? legacy cs = some n
      ∧ ∀ q ∈ earlier, q.2.length? legacy cs = none := by
  have htable : ∀ p ∈ patterns,
      (p.2 = .comment → p.1 = .comment) ∧ (p.2 = .blanks → p.1 = .blanks) := by decide +kernel
  obtain ⟨earlier, p, later, hpatterns, rfl, hlength, hnone⟩ := (firstToken_eq_iff hunknown).1 h
  have hp := mem_patterns_of_eq hpatterns
  exact ⟨earlier, p, later, hpatterns, rfl, fun hq => hcomment ((htable p hp).1 hq),
    fun hq => hblanks ((htable p hp).2 hq), hlength, hnone⟩

/-- A sign, a number or a text. -/
theorem first_of_not_isNameStart (hc : isNameStart c = false) (hrest : Separated rest)
    (hunknown : kind ≠ .unknown) (hcomment : kind ≠ .comment) (hblanks : kind ≠ .blanks)
    (h : firstToken legacy (c :: text ++ cs) = (kind, (c :: text).length)) :
    firstToken legacy (c :: text ++ rest) = (kind, (c :: text).length) := by
  obtain ⟨earlier, p, later, hpatterns, rfl, hcomment, hblanks, hlength, hnone⟩ :=
    exists_pattern hunknown hcomment hblanks h
  have hp := mem_patterns_of_eq hpatterns
  have hword : p.2.isWord = false := by
    rw [← Bool.not_eq_true]
    intro hword
    rw [List.cons_append,
      Pattern.length?_of_isWord (isSpelled_of_mem_patterns p hp) hword hc] at hlength
    cases hlength
  have hclosed : c = '\'' → ∃ body, text = body ++ ['\''] := by
    rintro rfl
    obtain ⟨body, hbody⟩ := closed_of_length? (isTight_of_mem_patterns p hp) hcomment hblanks hword
      hlength rfl
    exact ⟨body, (List.cons.inj hbody).2⟩
  refine (firstToken_eq_iff hunknown).2 ⟨earlier, p, later, hpatterns, rfl,
    Pattern.length?_apart hcomment hblanks hword hrest hlength, fun q hq => ?_⟩
  have hq' : q ∈ patterns := by
    rw [hpatterns]
    exact List.mem_append_left _ hq
  exact Pattern.length?_eq_none_apart (isSpelled_of_mem_patterns q hq')
    (isTight_of_mem_patterns q hq') hc hclosed hrest (hnone q hq)

theorem solid_of_firstToken (hunknown : kind ≠ .unknown) (hcomment : kind ≠ .comment)
    (hblanks : kind ≠ .blanks) (hne : text ++ cs ≠ [])
    (h : firstToken legacy (text ++ cs) = (kind, text.length)) : Solid legacy kind text := by
  obtain ⟨c, text, rfl⟩ := List.exists_cons_of_length_pos (cut_of_firstToken hne h).pos
  constructor
  · obtain ⟨earlier, p, later, hpatterns, -, -, hblanks, hlength, -⟩ :=
      exists_pattern hunknown hcomment hblanks h
    have hp := mem_patterns_of_eq hpatterns
    exact ⟨c, text, rfl, Pattern.isBlank_eq_false_of_length? (isSpelled_of_mem_patterns p hp)
      (isTight_of_mem_patterns p hp) hblanks hlength⟩
  · intro rest hrest
    cases hc : isNameStart c with
    | true => exact first_of_isNameStart hc hrest h
    | false => exact first_of_not_isNameStart hc hrest hunknown hcomment hblanks h

/-! ### Spreading tokens -/

/-- Texts stand one after the other with some spaces and tabs between them. -/
inductive Spread : List (List Char) → List Char → Prop
  | none : Spread [] []
  | last (text : List Char) : Spread [text] text
  | next (text gap : List Char) (texts : List (List Char)) (cs : List Char) (htexts : texts ≠ [])
      (hne : gap ≠ []) (hgap : ∀ c ∈ gap, c = ' ' ∨ c = '\t') (hspread : Spread texts cs) :
      Spread (text :: texts) (text ++ (gap ++ cs))

theorem Spread.starts {texts : List (List Char)} (h : Spread texts cs) (hne : texts ≠ [])
    (htexts : ∀ text ∈ texts, ∃ c behind, text = c :: behind ∧ isBlank c = false) :
    ∃ c behind, cs = c :: behind ∧ isBlank c = false := by
  cases h with
  | none => exact absurd rfl hne
  | last => exact htexts cs List.mem_cons_self
  | next text gap texts cs =>
    obtain ⟨c, behind, rfl, hc⟩ := htexts text List.mem_cons_self
    exact ⟨c, behind ++ (gap ++ cs), rfl, hc⟩

theorem blanksLength?_gap {gap : List Char} (hne : gap ≠ [])
    (hgap : ∀ c ∈ gap, c = ' ' ∨ c = '\t') (hc : isBlank c = false) :
    blanksLength? (gap ++ c :: cs) = some gap.length := by
  have hrun : (gap ++ c :: cs).takeWhile (fun c => c == ' ' || c == '\t') = gap := by
    apply takeWhile_append_of_head
    · intro d hd
      rw [Bool.or_eq_true, beq_iff_eq, beq_iff_eq]
      exact hgap d hd
    · rintro d hd
      obtain rfl := Option.some.inj hd
      rw [Bool.or_eq_false_iff, beq_eq_false_iff_ne, beq_eq_false_iff_ne]
      constructor
      · rintro rfl
        cases hc
      · rintro rfl
        cases hc
  obtain ⟨d, gap, rfl⟩ := List.exists_cons_of_ne_nil hne
  rw [blanksLength?, hrun]
  rfl

/-- A gap is a token of blanks: no other pattern fits where a blank stands. -/
theorem firstToken_gap {gap : List Char} (hne : gap ≠ []) (hgap : ∀ c ∈ gap, c = ' ' ∨ c = '\t')
    (hc : isBlank c = false) : firstToken legacy (gap ++ c :: cs) = (.blanks, gap.length) := by
  have htable : ∀ q ∈ leading ++ [(.name, .name)], q ∈ patterns ∧ q.2 ≠ .blanks := by decide +kernel
  refine (firstToken_eq_iff (by decide)).2 ⟨leading ++ [(.name, .name)], (.blanks, .blanks), [],
    rfl, rfl, blanksLength?_gap hne hgap hc, fun q hq => ?_⟩
  obtain ⟨hmem, hblanks⟩ := htable q hq
  obtain ⟨d, gap, rfl⟩ := List.exists_cons_of_ne_nil hne
  cases hlength : q.2.length? legacy (d :: gap ++ c :: cs) with
  | none => rfl
  | some n =>
    have hd := Pattern.isBlank_eq_false_of_length? (isSpelled_of_mem_patterns q hmem)
      (isTight_of_mem_patterns q hmem) hblanks hlength
    rcases hgap d List.mem_cons_self with rfl | rfl
    · cases hd
    · cases hd

theorem isBlankText_append (text : List Char) (hc : isBlank c = false) :
    isBlankText (text ++ c :: cs) = false := by
  rw [isBlankText, List.all_append, List.all_cons, hc, Bool.false_and, Bool.and_false]

theorem Solid.scans {t : Token} {us : List Token} {last : List Char}
    (h : Solid legacy t.kind t.text.toList) (hpos : t.pos = pos) (hrest : Separated rest)
    (hscans : Scans legacy pos rest us last) :
    Scans legacy pos (t.text.toList ++ rest) (t :: us) last := by
  obtain ⟨c, behind, htext, hc⟩ := h.starts
  refine scans_cons_iff.2 ⟨rest, rfl, ?_, h.first rest hrest, hpos, hscans⟩
  rw [htext]
  exact isBlankText_append [] hc

theorem scans_gap {gap : List Char} {us : List Token} {last : List Char} (hne : gap ≠ [])
    (hgap : ∀ c ∈ gap, c = ' ' ∨ c = '\t') (hc : isBlank c = false)
    (hscans : Scans legacy pos (c :: cs) us last) :
    Scans legacy pos (gap ++ c :: cs) (⟨.blanks, String.ofList gap, pos⟩ :: us) last :=
  .token .blanks gap (c :: cs) us last (isBlankText_append gap hc) (firstToken_gap hne hgap hc)
    hscans

/-- Scanning spread tokens gives them back, with blanks between them. -/
theorem Spread.scans {texts : List (List Char)} {ts : List Token} (h : Spread texts cs)
    (htexts : ts.map (·.text.toList) = texts)
    (hts : ∀ t ∈ ts, Solid legacy t.kind t.text.toList ∧ t.isIgnorable = false ∧ t.pos = pos) :
    ∃ us, Scans legacy pos cs us [] ∧ us.filter (!·.isIgnorable) = ts := by
  induction h generalizing ts with
  | none =>
    obtain rfl := List.map_eq_nil_iff.1 htexts
    exact ⟨[], .done [] rfl, rfl⟩
  | last text =>
    obtain ⟨t, rfl, rfl⟩ := List.map_eq_singleton_iff.1 htexts
    obtain ⟨hsolid, hcounts, hpos⟩ := hts t List.mem_cons_self
    have hscans := hsolid.scans hpos (show Separated [] from nofun) (.done [] rfl)
    rw [List.append_nil] at hscans
    exact ⟨[t], hscans, by simp [hcounts]⟩
  | next text gap texts cs hmore hne hgap hspread ih =>
    obtain ⟨t, ts, rfl, rfl, rfl⟩ := List.map_eq_cons_iff.1 htexts
    rw [List.forall_mem_cons] at hts
    obtain ⟨⟨hsolid, hcounts, hpos⟩, hts⟩ := hts
    have hstarts : ∀ text ∈ ts.map (·.text.toList),
        ∃ c behind, text = c :: behind ∧ isBlank c = false := by
      intro text htext
      obtain ⟨u, hu, rfl⟩ := List.mem_map.1 htext
      exact (hts u hu).1.starts
    obtain ⟨c, behind, rfl, hc⟩ := hspread.starts hmore hstarts
    obtain ⟨us, hscans, hfilter⟩ := ih rfl hts
    have hseparated : Separated (gap ++ c :: behind) := by
      obtain ⟨d, gap, rfl⟩ := List.exists_cons_of_ne_nil hne
      rintro e he
      obtain rfl := Option.some.inj he
      exact hgap d List.mem_cons_self
    refine ⟨t :: ⟨.blanks, String.ofList gap, pos⟩ :: us,
      hsolid.scans hpos hseparated (scans_gap hne hgap hc hscans), ?_⟩
    rw [List.filter_cons_of_pos (by rw [hcounts]; rfl),
      List.filter_cons_of_neg Bool.false_ne_true, hfilter]

/-- **Spacing between tokens does not matter.**  In either keyword mode, let a line have no unknown
characters, and let the texts of its tokens, but for blanks and comments, be written one after the
other with any spaces and tabs between them.  The line that this gives has the same tokens, but for
blanks and comments. -/
theorem spacing_irrelevant (legacy : Bool) (pos : Pos) (line spread : List Char)
    (hknown : ∀ t ∈ scanLine legacy pos line, t.kind ≠ .unknown)
    (hspread : Spread (((scanLine legacy pos line).filter (!·.isIgnorable)).map (·.text.toList))
      spread) :
    (scanLine legacy pos spread).filter (!·.isIgnorable)
      = (scanLine legacy pos line).filter (!·.isIgnorable) := by
  obtain ⟨rest, hscans⟩ := scanLine_eq_iff.1 (rfl : scanLine legacy pos line = _)
  have hsolid : ∀ t ∈ (scanLine legacy pos line).filter (!·.isIgnorable),
      Solid legacy t.kind t.text.toList ∧ t.isIgnorable = false ∧ t.pos = pos := by
    intro t ht
    obtain ⟨hmem, hcounts⟩ := List.mem_filter.1 ht
    rw [Bool.not_eq_true'] at hcounts
    obtain ⟨before, after, hline⟩ := List.append_of_mem hmem
    rw [hline] at hscans
    obtain ⟨here, -, hblank, hfirst, hpos⟩ := hscans.at_token
    have hkind : t.kind ≠ .blanks ∧ t.kind ≠ .comment := by
      rwa [Token.isIgnorable, Bool.or_eq_false_iff, beq_eq_false_iff_ne,
        beq_eq_false_iff_ne] at hcounts
    exact ⟨solid_of_firstToken (hknown t hmem) hkind.2 hkind.1 (ne_nil_of_not_blank hblank) hfirst,
      hcounts, hpos⟩
  obtain ⟨us, hus, hfilter⟩ := hspread.scans rfl hsolid
  rw [← hfilter, scanLine_eq_iff.2 ⟨[], hus⟩]

/-- With legacy keywords, `order` is the two tokens `or` and `der` and stays so when a space is put
between them; the comment is left out. -/
theorem spacing_irrelevant_of_order :
    (scanLine true ⟨"a.pas", 1⟩ "or der\t:= 1 %1".toList).filter (!·.isIgnorable)
      = (scanLine true ⟨"a.pas", 1⟩ "order:=1%1 //x".toList).filter (!·.isIgnorable) := by
  have htexts : ((scanLine true ⟨"a.pas", 1⟩ "order:=1%1 //x".toList).filter
      (!·.isIgnorable)).map (·.text.toList)
      = ["or".toList, "der".toList, ":=".toList, "1".toList, "%1".toList] := by decide +kernel
  refine spacing_irrelevant true ⟨"a.pas", 1⟩ "order:=1%1 //x".toList "or der\t:= 1 %1".toList
    (by decide +kernel) ?_
  rw [htexts]
  exact .next "or".toList [' '] _ "der\t:= 1 %1".toList (by decide) (by decide) (by simp) <|
    .next "der".toList ['\t'] _ ":= 1 %1".toList (by decide) (by decide) (by simp) <|
    .next ":=".toList [' '] _ "1 %1".toList (by decide) (by decide) (by simp) <|
    .next "1".toList [' '] _ "%1".toList (by decide) (by decide) (by simp) <| .last _

end NibblePascal
