import Mathlib.Data.Nat.Digits.Defs
import NibblePascal.Proofs.Token.Words
import NibblePascal.Token.Number

/-!
# Numerals

* `Numeral text value most`: a text is a numeral, decimal, hexadecimal, binary or a quoted
  character, with its value and the greatest value that such a numeral may have;
* `numeral_of_numberLength?` and `Numeral.numberLength?_append`: the pattern of numbers takes
  numerals off a text, and nothing else;
* `Numeral.numberValue_eq`: reading a numeral gives its value, as far as that is allowed.  Digits
  that do not fit in 64 bits are given up on the way, but then the number is too large anyway.
-/

namespace NibblePascal

variable {legacy : Bool} {pos : Pos} {cs rest text digits : List Char} {c : Char}
  {n limit base value most : Nat} {isDigitOf : Char → Bool}

/-! ### Digits -/

/-- The place of a character among the digits up to `f`, in either case. -/
def digitOf (c : Char) : Nat := "0123456789abcdef".toList.idxOf c.toLower

/-- The number that digits denote to a base, the most significant one first. -/
def digitsNumber (base : Nat) (digits : List Char) : Nat :=
  Nat.ofDigits base (digits.reverse.map digitOf)

theorem digitsNumber_cons (base : Nat) (c : Char) (digits : List Char) :
    digitsNumber base (c :: digits)
      = digitOf c * base ^ digits.length + digitsNumber base digits := by
  rw [digitsNumber, List.reverse_cons, List.map_append, Nat.ofDigits_append, List.map_singleton,
    Nat.ofDigits_singleton, List.length_map, List.length_reverse, digitsNumber]
  ring

/-- Numerals and their values. -/
inductive Numeral : List Char → Nat → Nat → Prop
  | decimal (digits : List Char) (hne : digits ≠ []) (hdigits : ∀ c ∈ digits, isDigit c = true) :
      Numeral digits (digitsNumber 10 digits) 0xFFFF
  | hexadecimal (digits : List Char) (hne : digits ≠ [])
      (hdigits : ∀ c ∈ digits, isHexDigit c = true) :
      Numeral ('$' :: digits) (digitsNumber 16 digits) 0xFFFF
  | binary (digits : List Char) (hne : digits ≠ [])
      (hdigits : ∀ c ∈ digits, isBinaryDigit c = true) :
      Numeral ('%' :: digits) (digitsNumber 2 digits) 0xFFFF
  | quoted (c : Char) (hc : c ≠ '\'') : Numeral ['\'', c, '\''] c.toNat 0xFF

theorem isHexDigit_iff : isHexDigit c = true ↔ (48 ≤ c.toNat ∧ c.toNat ≤ 57)
    ∨ (97 ≤ c.toNat ∧ c.toNat ≤ 102) ∨ (65 ≤ c.toNat ∧ c.toNat ≤ 70) := by
  rw [isHexDigit, Bool.or_eq_true, Bool.or_eq_true, isDigit_iff, or_assoc]
  simp only [Bool.and_eq_true, decide_eq_true_iff]
  exact Iff.rfl

theorem isHexDigit_of_isDigit (h : isDigit c = true) : isHexDigit c = true :=
  isHexDigit_iff.2 (Or.inl (isDigit_iff.1 h))

theorem isBinaryDigit_iff : isBinaryDigit c = true ↔ c = '0' ∨ c = '1' := by
  rw [isBinaryDigit, Bool.or_eq_true, beq_iff_eq, beq_iff_eq]

/-- What reading digits needs to know about them. -/
def Denotes (base : Nat) (c : Char) : Prop := digitValue? c = some (digitOf c) ∧ digitOf c < base

/-- Looked through for the characters up to `f`. -/
theorem digitValue?_of_isHexDigit (h : isHexDigit c = true) :
    digitValue? c = some (digitOf c) ∧ digitOf c < 16 ∧ (isDigit c = true → digitOf c < 10) := by
  have hall : ∀ n < 103, isHexDigit (Char.ofNat n) = true →
      digitValue? (Char.ofNat n) = some (digitOf (Char.ofNat n)) ∧ digitOf (Char.ofNat n) < 16
        ∧ (isDigit (Char.ofNat n) = true → digitOf (Char.ofNat n) < 10) := by
    decide +kernel
  have hlt : c.toNat < 103 := by
    rw [isHexDigit_iff] at h
    omega
  have hc := hall c.toNat hlt
  rw [Char.ofNat_toNat] at hc
  exact hc h

theorem denotes_of_isHexDigit (h : isHexDigit c = true) : Denotes 16 c := by
  obtain ⟨hvalue, hlt, -⟩ := digitValue?_of_isHexDigit h
  exact ⟨hvalue, hlt⟩

theorem denotes_of_isDigit (h : isDigit c = true) : Denotes 10 c := by
  obtain ⟨hvalue, -, hlt⟩ := digitValue?_of_isHexDigit (isHexDigit_of_isDigit h)
  exact ⟨hvalue, hlt h⟩

theorem isHexDigit_of_isBinaryDigit (h : isBinaryDigit c = true) : isHexDigit c = true := by
  rcases isBinaryDigit_iff.1 h with rfl | rfl <;> decide

theorem denotes_of_isBinaryDigit (h : isBinaryDigit c = true) : Denotes 2 c := by
  rcases isBinaryDigit_iff.1 h with rfl | rfl
  · exact ⟨by decide, by decide⟩
  · exact ⟨by decide, by decide⟩

/-! ### Taking numerals off a text -/

theorem markedLength?_eq_some_iff :
    markedLength? isDigitOf cs = some (n + 1) ↔ 0 < n ∧ n = (cs.takeWhile isDigitOf).length := by
  unfold markedLength?
  split
  · rename_i hlength
    rw [hlength]
    constructor
    · exact nofun
    · rintro ⟨hpos, rfl⟩
      exact absurd hpos (Nat.lt_irrefl 0)
  · rename_i m hlength
    rw [hlength, Option.some_inj]
    omega

/-- The digits behind a mark. -/
theorem digits_of_markedLength?
    (h : markedLength? isDigitOf (text ++ cs) = some (text.length + 1)) :
    text ≠ [] ∧ ∀ c ∈ text, isDigitOf c = true := by
  obtain ⟨hpos, hlength⟩ := markedLength?_eq_some_iff.1 h
  refine ⟨List.length_pos_iff.1 hpos, fun c hc => ?_⟩
  rw [eq_takeWhile_of_length hlength] at hc
  exact List.mem_takeWhile_imp hc

theorem numberLength?_of_isDigit (cs : List Char) (hc : isDigit c = true) :
    numberLength? (c :: cs) = some ((cs.takeWhile isDigit).length + 1) := by
  unfold numberLength?
  exact if_pos hc

theorem numberLength?_quote (a b : Char) (cs : List Char) :
    numberLength? ('\'' :: a :: b :: cs) = if b = '\'' ∧ a ≠ '\'' then some 3 else none := by
  by_cases hb : b = '\''
  · subst hb
    by_cases ha : a = '\''
    · subst ha
      rfl
    · rw [if_pos ⟨rfl, ha⟩]
      exact if_neg (by rwa [beq_iff_eq])
  · rw [if_neg fun h => hb h.1, numberLength?]
    · rfl
    · rintro d behind heq
      exact hb (List.cons.inj (List.cons.inj heq).2).1

theorem quoted_of_numberLength?
    (h : numberLength? ('\'' :: (text ++ cs)) = some (text.length + 1)) :
    ∃ c, c ≠ '\'' ∧ text = [c, '\''] := by
  rcases htext : text ++ cs with _ | ⟨a, _ | ⟨b, behind⟩⟩ <;> rw [htext] at h
  · cases h
  · cases h
  · rw [numberLength?_quote] at h
    split at h
    · rename_i hquote
      have hlength : text.length = 2 := Nat.succ.inj (Option.some.inj h).symm
      obtain ⟨d, e, rfl⟩ := List.length_eq_two.1 hlength
      obtain ⟨rfl, rfl, -⟩ : d = a ∧ e = b ∧ _ := by simpa using htext
      exact ⟨d, hquote.2, by rw [hquote.1]⟩
    · cases h

/-- What the pattern of numbers takes is a numeral. -/
theorem numeral_of_numberLength? (h : numberLength? (text ++ cs) = some text.length) :
    ∃ value most, Numeral text value most := by
  obtain ⟨c, text, rfl⟩ := List.exists_cons_of_length_pos (cut_of_numberLength? h).pos
  rw [List.cons_append, List.length_cons] at h
  rcases numberStart_cases c with hc | rfl | rfl | rfl | hnone
  · rw [numberLength?_of_isDigit _ hc] at h
    have hlength := Nat.succ.inj (Option.some.inj h)
    refine ⟨_, _, .decimal (c :: text) (List.cons_ne_nil c text) ?_⟩
    rw [List.forall_mem_cons]
    refine ⟨hc, fun d hd => ?_⟩
    rw [eq_takeWhile_of_length hlength.symm] at hd
    exact List.mem_takeWhile_imp hd
  · obtain ⟨hne, hdigits⟩ := digits_of_markedLength? h
    exact ⟨_, _, .hexadecimal text hne hdigits⟩
  · obtain ⟨hne, hdigits⟩ := digits_of_markedLength? h
    exact ⟨_, _, .binary text hne hdigits⟩
  · obtain ⟨c, hc, rfl⟩ := quoted_of_numberLength? h
    exact ⟨_, _, .quoted c hc⟩
  · rw [hnone] at h
    cases h

theorem takeWhile_append_of_head {p : Char → Bool} (hdigits : ∀ c ∈ digits, p c = true)
    (hrest : ∀ c ∈ rest.head?, p c = false) : (digits ++ rest).takeWhile p = digits := by
  have hstop : rest.takeWhile p = [] := by
    cases rest with
    | nil => rfl
    | cons c rest => rw [List.takeWhile_cons, hrest c rfl]; rfl
  rw [List.takeWhile_append_of_pos hdigits, hstop, List.append_nil]

theorem markedLength?_append (hne : digits ≠ []) (hdigits : ∀ c ∈ digits, isDigitOf c = true)
    (hrest : ∀ c ∈ rest.head?, isDigitOf c = false) :
    markedLength? isDigitOf (digits ++ rest) = some (digits.length + 1) := by
  rw [markedLength?_eq_some_iff, takeWhile_append_of_head hdigits hrest]
  exact ⟨List.length_pos_iff.2 hne, rfl⟩

/-- A numeral is a number wherever no digit follows it. -/
theorem Numeral.numberLength?_append (h : Numeral text value most)
    (hrest : ∀ c ∈ rest.head?, isHexDigit c = false) :
    numberLength? (text ++ rest) = some text.length := by
  have hstop : ∀ p : Char → Bool, (∀ c, p c = true → isHexDigit c = true) →
      ∀ c ∈ rest.head?, p c = false := by
    intro p hp c hc
    rw [← Bool.not_eq_true]
    intro hpc
    exact Bool.false_ne_true ((hrest c hc).symm.trans (hp c hpc))
  cases h with
  | decimal digits hne hdigits =>
    obtain ⟨c, digits, rfl⟩ := List.exists_cons_of_ne_nil hne
    rw [List.forall_mem_cons] at hdigits
    rw [List.cons_append, numberLength?_of_isDigit _ hdigits.1, List.length_cons,
      takeWhile_append_of_head hdigits.2 (hstop isDigit fun _ => isHexDigit_of_isDigit)]
  | hexadecimal digits hne hdigits => exact markedLength?_append hne hdigits hrest
  | binary digits hne hdigits =>
    exact markedLength?_append hne hdigits
      (hstop isBinaryDigit fun _ => isHexDigit_of_isBinaryDigit)
  | quoted c hc =>
    show numberLength? ('\'' :: c :: '\'' :: rest) = some 3
    rw [numberLength?_quote, if_pos ⟨rfl, hc⟩]

/-! ### Reading numerals -/

/-- Digits are read up to the limit.  The number read so far only grows, and so one that leaves the
limit on the way leaves it at the end. -/
theorem digitsValue?_eq (hbase : 0 < base) (hdigits : ∀ c ∈ digits, Denotes base c)
    (hvalue : value < limit) :
    digitsValue? limit base value digits
      = if value * base ^ digits.length + digitsNumber base digits < limit then
          some (value * base ^ digits.length + digitsNumber base digits) else none := by
  induction digits generalizing value with
  | nil =>
    have hnumber : value * base ^ ([] : List Char).length + digitsNumber base [] = value := by
      simp [digitsNumber]
    rw [hnumber, if_pos hvalue, digitsValue?]
  | cons c digits ih =>
    rw [List.forall_mem_cons] at hdigits
    obtain ⟨⟨hdigit, hlt⟩, hdigits⟩ := hdigits
    have hnumber : value * base ^ (c :: digits).length + digitsNumber base (c :: digits)
        = (value * base + digitOf c) * base ^ digits.length + digitsNumber base digits := by
      rw [digitsNumber_cons, List.length_cons]
      ring
    rw [digitsValue?, hdigit, hnumber]
    show (if _ then _ else none) = _
    by_cases hstep : value * base + digitOf c < limit
    · rw [if_pos (by simp [hlt, hstep]), ih hdigits hstep]
    · have hgrow := Nat.le_mul_of_pos_right (value * base + digitOf c)
        (Nat.pow_pos (n := digits.length) hbase)
      rw [if_neg (by simp [hstep]), if_neg (by omega)]

theorem numeralValue?_eq (hbase : 0 < base) (hlimit : 0 < limit) (hne : digits ≠ [])
    (hdigits : ∀ c ∈ digits, Denotes base c) :
    numeralValue? limit base digits
      = if digitsNumber base digits < limit then some (digitsNumber base digits) else none := by
  have hplus : ∀ behind, digits ≠ '+' :: behind := by
    rintro behind rfl
    cases (hdigits '+' List.mem_cons_self).1
  have heq : numeralValue? limit base digits = digitsValue? limit base 0 digits := by
    unfold numeralValue?
    split
    · exact absurd rfl (hplus _)
    · rw [if_neg (by rwa [List.isEmpty_iff])]
  rw [heq, digitsValue?_eq hbase hdigits hlimit, Nat.zero_mul, Nat.zero_add]

/-- A number of digits is read if it fits in sixteen bits.  One that does not fit in 64 bits is
given up before that is checked, with the same complaint. -/
theorem numberValue_of_digits {text : String}
    (hraw : rawNumber text = .ok (numeralValue? digitsLimit base digits)) (hbase : 0 < base)
    (hne : digits ≠ []) (hdigits : ∀ c ∈ digits, Denotes base c) :
    numberValue text = if digitsNumber base digits ≤ 0xFFFF then .ok (digitsNumber base digits)
      else .error (.numberTooLarge text) := by
  rw [numberValue, hraw, numeralValue?_eq hbase (by decide) hne hdigits]
  by_cases hfits : digitsNumber base digits ≤ 0xFFFF
  · have hlimit : digitsNumber base digits < digitsLimit := by
      rw [digitsLimit]
      omega
    rw [if_pos hlimit, if_pos hfits]
    exact if_pos (by omega)
  · rw [if_neg hfits]
    split_ifs
    · exact if_neg (by omega)
    · rfl

theorem rawNumber_of_isDigit {text : String} (htext : text.toList = c :: digits)
    (hc : isDigit c = true) :
    rawNumber text = .ok (numeralValue? digitsLimit 10 (c :: digits)) := by
  have hne : ∀ d, isDigit d = false → c ≠ d := by
    rintro d hd rfl
    exact Bool.false_ne_true (hd.symm.trans hc)
  have hquoted : quoted? (c :: digits) = none := by
    unfold quoted?
    split
    · rename_i heq
      exact absurd (List.cons.inj heq).1 (hne '\'' (by decide))
    · rfl
  unfold rawNumber
  rw [htext]
  split
  · rename_i heq
    exact absurd (List.cons.inj heq).1 (hne '$' (by decide))
  · rename_i heq
    exact absurd (List.cons.inj heq).1 (hne '%' (by decide))
  · rw [hquoted]

/-- Reading a numeral gives its value if that is allowed, and else complains about its text. -/
theorem Numeral.numberValue_eq {text : String} (h : Numeral text.toList value most) :
    ∃ why ∈ [Complaint.numberTooLarge text, .wideCharacter text],
      numberValue text = if value ≤ most then .ok value else .error why := by
  generalize hcs : text.toList = cs at h
  cases h with
  | decimal digits hne hdigits =>
    obtain ⟨c, digits, rfl⟩ := List.exists_cons_of_ne_nil hne
    have hraw := rawNumber_of_isDigit hcs (hdigits c List.mem_cons_self)
    exact ⟨_, List.mem_cons_self, numberValue_of_digits hraw (by decide) hne
      fun c hc => denotes_of_isDigit (hdigits c hc)⟩
  | hexadecimal digits hne hdigits =>
    have hraw : rawNumber text = .ok (numeralValue? digitsLimit 16 digits) := by
      rw [rawNumber, hcs]
      rfl
    exact ⟨_, List.mem_cons_self, numberValue_of_digits hraw (by decide) hne
      fun c hc => denotes_of_isHexDigit (hdigits c hc)⟩
  | binary digits hne hdigits =>
    have hraw : rawNumber text = .ok (numeralValue? digitsLimit 2 digits) := by
      rw [rawNumber, hcs]
      rfl
    exact ⟨_, List.mem_cons_self, numberValue_of_digits hraw (by decide) hne
      fun c hc => denotes_of_isBinaryDigit (hdigits c hc)⟩
  | quoted c hc =>
    refine ⟨.wideCharacter text, List.mem_cons_of_mem _ List.mem_cons_self, ?_⟩
    have hraw : rawNumber text
        = if c.toNat < 0x100 then .ok (some c.toNat) else .error (.wideCharacter text) := by
      rw [rawNumber, hcs]
      rfl
    rw [numberValue, hraw]
    by_cases hfits : c.toNat ≤ 0xFF
    · rw [if_pos (by omega), if_pos hfits]
      exact if_pos (by omega)
    · rw [if_neg (by omega), if_neg hfits]

/-! ### Number tokens -/

theorem numberLength?_of_kind (h : firstToken legacy cs = (.number, n)) :
    numberLength? cs = some n := by
  have htable : ∀ p ∈ patterns, p.1 = .number → p.2 = .number := by decide +kernel
  obtain ⟨earlier, p, later, hp, hkind, hlength, -⟩ := (firstToken_eq_iff (by decide)).1 h
  rw [htable p (mem_patterns_of_eq hp) hkind] at hlength
  exact hlength

/-- **Number tokens mean what they say.**  In either keyword mode, a number token of a line is a
decimal, hexadecimal or binary numeral or a quoted character.  It is read as its value if that is at
most 65535, and at most 255 for a character; otherwise the answer is a fault at the position of the
token, which names its text. -/
theorem number_tokens_read (legacy : Bool) (pos : Pos) (line : List Char) (t : Token)
    (ht : t ∈ scanLine legacy pos line) (hkind : t.kind = .number) :
    (∃ value most, Numeral t.text.toList value most)
    ∧ ∀ value most, Numeral t.text.toList value most →
        ∃ why ∈ [Complaint.numberTooLarge t.text, .wideCharacter t.text],
          t.numberValue = if value ≤ most then .ok value else .error (.source t.pos why) := by
  obtain ⟨before, after, hline⟩ := List.append_of_mem ht
  obtain ⟨rest, hscans⟩ := scanLine_eq_iff.1 hline
  obtain ⟨behind, -, -, hfirst, -⟩ := hscans.at_token
  rw [hkind] at hfirst
  refine ⟨numeral_of_numberLength? (numberLength?_of_kind hfirst), fun value most hnumeral => ?_⟩
  obtain ⟨why, hwhy, hvalue⟩ := hnumeral.numberValue_eq
  refine ⟨why, hwhy, ?_⟩
  rw [Token.numberValue, hvalue]
  by_cases hfits : value ≤ most
  · rw [if_pos hfits, if_pos hfits]
  · rw [if_neg hfits, if_neg hfits]

/-- A number that would be one if its digits were counted modulo 2 to the 64 is refused. -/
theorem number_tokens_read_beyond_64_bits :
    ∃ why, (⟨.number, "18446744073709551617", ⟨"a.pas", 1⟩⟩ : Token).numberValue
      = .error (.source ⟨"a.pas", 1⟩ why) := by
  obtain ⟨-, hread⟩ := number_tokens_read false ⟨"a.pas", 1⟩ "x:=18446744073709551617;".toList
    ⟨.number, "18446744073709551617", ⟨"a.pas", 1⟩⟩ (by decide +kernel) rfl
  obtain ⟨why, -, hvalue⟩ := hread _ _
    (.decimal "18446744073709551617".toList (by decide) (List.all_eq_true.1 (by decide +kernel)))
  rw [if_neg (by decide +kernel)] at hvalue
  exact ⟨why, hvalue⟩

end NibblePascal
