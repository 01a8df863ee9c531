import NibblePascal.Code.Inline
import NibblePascal.Proofs.Token.Numerals

/-!
# Groups in a line of inline assembly

A parameter is looked through from its beginning after every replacement.  All the same it is gone
over once, from left to right: an address has no parenthesis, so what has been gone over is never
replaced again.

* `Group`, `Parted`: the groups of a parameter, from a parenthesis to the next closing one, and the
  rest behind the last group that counts;
* `Spells`, `Decimal`: the name and the offset in the text of a group, and the value of an offset;
* `replaceFirst_group`: one turn replaces one group, whatever has been gone over;
* `substitute_groups`: so the turns go along the groups.
-/

namespace NibblePascal.Code

variable {addr? : String → Option Nat} {c : Char} {cs before inner front : List Char} {n : Nat}

/-! ### Groups -/

/-- A group of a parameter, with the text between it and the group before it. -/
structure Group where
  before : List Char
  inner : List Char
  clear : '(' ∉ before
  closed : ')' ∉ inner
  filled : inner ≠ []

namespace Group

/-- A group as it is written. -/
def text (group : Group) : List Char := group.before ++ '(' :: (group.inner ++ [')'])

/-- A group with more text before it. -/
def behind (group : Group) (front : List Char) (h : '(' ∉ front) : Group where
  before := front ++ group.before
  inner := group.inner
  clear := List.not_mem_append h group.clear
  closed := group.closed
  filled := group.filled

theorem text_behind (group : Group) (h : '(' ∉ front) :
    (group.behind front h).text = front ++ group.text := List.append_assoc ..

end Group

/-- What is left as it is: there is no parenthesis, or the first one is not closed, or it has
nothing in it. -/
inductive IsRest : List Char → Prop
  | plain {cs : List Char} (h : '(' ∉ cs) : IsRest cs
  | unclosed {before behind : List Char} (hbefore : '(' ∉ before) (hbehind : ')' ∉ behind) :
      IsRest (before ++ '(' :: behind)
  | empty {before behind : List Char} (hbefore : '(' ∉ before) :
      IsRest (before ++ '(' :: ')' :: behind)

theorem IsRest.behind (h : IsRest cs) (hfront : '(' ∉ front) : IsRest (front ++ cs) := by
  cases h with
  | plain h => exact .plain (List.not_mem_append hfront h)
  | unclosed hbefore hbehind =>
    rw [← List.append_assoc]
    exact .unclosed (List.not_mem_append hfront hbefore) hbehind
  | empty hbefore =>
    rw [← List.append_assoc]
    exact .empty (List.not_mem_append hfront hbefore)

/-- A parameter is made of groups and a rest. -/
structure Parted (cs : List Char) (groups : List Group) (rest : List Char) : Prop where
  eq : cs = groups.flatMap Group.text ++ rest
  isRest : IsRest rest

/-- A text is a rest or begins with a group. -/
theorem isRest_or_group (cs : List Char) :
    IsRest cs ∨ ∃ (group : Group) (more : List Char), cs = group.text ++ more := by
  by_cases hopen : '(' ∈ cs
  · obtain ⟨before, behind, rfl, hbefore⟩ := List.eq_append_cons_of_mem hopen
    by_cases hclose : ')' ∈ behind
    · obtain ⟨inner, more, rfl, hinner⟩ := List.eq_append_cons_of_mem hclose
      by_cases hfilled : inner = []
      · subst hfilled
        exact .inl (.empty hbefore)
      · exact .inr ⟨⟨before, inner, hbefore, hinner, hfilled⟩, more, by simp [Group.text]⟩
    · exact .inl (.unclosed hbefore hclose)
  · exact .inl (.plain hopen)

/-- Every parameter is made of groups and a rest. -/
theorem exists_parted (cs : List Char) : ∃ groups rest, Parted cs groups rest := by
  induction hlength : cs.length using Nat.strong_induction_on generalizing cs with
  | h n ih =>
    obtain hrest | ⟨group, more, rfl⟩ := isRest_or_group cs
    · exact ⟨[], cs, rfl, hrest⟩
    · have hlt : more.length < n := by
        rw [← hlength, Group.text]
        simp only [List.length_append, List.length_cons]
        omega
      obtain ⟨groups, rest, heq, hrest⟩ := ih _ hlt more rfl
      exact ⟨group :: groups, rest, by rw [heq, List.flatMap_cons, List.append_assoc], hrest⟩

/-! ### What the text of a group stands for -/

/-- The name and the offset in the text of a group.  They stand before and behind the first plus
sign, with blanks around them; without a plus sign the offset is zero. -/
inductive Spells : List Char → String → List Char → Prop
  | plain {inner : List Char} (h : '+' ∉ inner) : Spells inner (String.ofList (trim inner)) ['0']
  | offset {name offset : List Char} (h : '+' ∉ name) :
      Spells (name ++ '+' :: offset) (String.ofList (trim name)) (trim offset)

theorem exists_spells (inner : List Char) : ∃ name offset, Spells inner name offset := by
  by_cases hplus : '+' ∈ inner
  · obtain ⟨name, offset, rfl, hname⟩ := List.eq_append_cons_of_mem hplus
    exact ⟨_, _, .offset hname⟩
  · exact ⟨_, _, .plain hplus⟩

/-- Decimal digits and their value. -/
structure Digits (cs : List Char) (n : Nat) : Prop where
  ne_nil : cs ≠ []
  all : ∀ c ∈ cs, isDigit c = true
  value : digitsNumber 10 cs = n

/-- Decimal digits, perhaps behind a plus sign, and their value. -/
def Decimal (cs : List Char) (n : Nat) : Prop :=
  Digits cs n ∨ ∃ digits, cs = '+' :: digits ∧ Digits digits n

/-! ### Cutting a text -/

theorem bne_of_notMem (h : c ∉ cs) : ∀ d ∈ cs, (d != c) = true := by
  intro d hd
  rw [bne_iff_ne]
  rintro rfl
  exact h hd

theorem splitAt?_append (h : c ∉ before) (rest : List Char) :
    splitAt? c (before ++ c :: rest) = some (before, rest) := by
  unfold splitAt?
  rw [List.dropWhile_append_of_pos (bne_of_notMem h),
    List.takeWhile_append_of_pos (bne_of_notMem h)]
  simp

theorem splitAt?_of_notMem (h : c ∉ cs) : splitAt? c cs = none := by
  unfold splitAt?
  rw [List.dropWhile_eq_nil_iff.2 (bne_of_notMem h)]

/-! ### Offsets -/

theorem isDigit_of_digitValue? {d : Nat} (h : digitValue? c = some d) (hd : d < 10) :
    isDigit c = true := by
  unfold digitValue? at h
  split at h
  · assumption
  · split at h
    · cases h
      omega
    · split at h
      · cases h
        omega
      · cases h

/-- Only digits are read. -/
theorem isDigit_of_digitsValue? {limit value : Nat} (h : digitsValue? limit 10 value cs = some n) :
    ∀ c ∈ cs, isDigit c = true := by
  induction cs generalizing value with
  | nil => exact List.forall_mem_nil _
  | cons c cs ih =>
    rw [digitsValue?] at h
    split at h
    · rename_i d hd
      split at h
      · rename_i hlt
        rw [Bool.and_eq_true, decide_eq_true_iff] at hlt
        exact List.forall_mem_cons.2 ⟨isDigit_of_digitValue? hd hlt.1, ih h⟩
      · cases h
    · cases h

/-- Digits are read if their value has sixteen bits. -/
theorem digits_iff : Digits cs n ∧ n ≤ 0xFFFF ↔
    (if cs.isEmpty then none else digitsValue? 0x10000 10 0 cs) = some n := by
  have hread (hdigits : ∀ c ∈ cs, isDigit c = true) : digitsValue? 0x10000 10 0 cs
      = if digitsNumber 10 cs < 0x10000 then some (digitsNumber 10 cs) else none := by
    rw [digitsValue?_eq (by decide) (fun c hc => denotes_of_isDigit (hdigits c hc)) (by decide),
      Nat.zero_mul, Nat.zero_add]
  constructor
  · rintro ⟨⟨hne, hdigits, rfl⟩, hn⟩
    rw [if_neg (by rwa [List.isEmpty_iff]), hread hdigits, if_pos (by omega)]
  · intro h
    split at h
    · cases h
    · rename_i hne
      have hdigits := isDigit_of_digitsValue? h
      rw [hread hdigits] at h
      split at h
      · cases h
        exact ⟨⟨by rwa [List.isEmpty_iff] at hne, hdigits, rfl⟩, by omega⟩
      · cases h

/-- Offsets are read if they are decimal numbers of sixteen bits. -/
theorem numeralValue?_eq_some_iff :
    numeralValue? 0x10000 10 cs = some n ↔ Decimal cs n ∧ n ≤ 0xFFFF := by
  unfold numeralValue?
  split
  · rename_i digits
    have hsign : Decimal ('+' :: digits) n ↔ Digits digits n := by
      constructor
      · rintro (h | ⟨_, heq, h⟩)
        · exact absurd (h.all '+' List.mem_cons_self) (by decide)
        · cases heq
          exact h
      · exact fun h => .inr ⟨digits, rfl, h⟩
    rw [hsign, digits_iff]
  · rename_i hplain
    have hsign : Decimal cs n ↔ Digits cs n := by
      constructor
      · rintro (h | ⟨digits, heq, -⟩)
        · exact h
        · exact absurd heq (hplain digits)
      · exact .inl
    rw [hsign, digits_iff]

/-! ### Reading a group -/

theorem Spells.reference_eq {name : String} {offset : List Char} (h : Spells inner name offset)
    (addr? : String → Option Nat) :
    reference addr? inner =
      match addr? name with
      | none => .error (.unknownAsmName name)
      | some base =>
          match numeralValue? 0x10000 10 offset with
          | some n => .ok ((base + n) % 0x10000)
          | none => .error (.invalidOffset (String.ofList offset)) := by
  cases h with
  | plain h =>
    rw [reference, splitAt?_of_notMem h]
    rfl
  | offset h =>
    rw [reference, splitAt?_append h]
    rfl

/-! ### The text of an address -/

/-- An address in inline assembly: its last twelve bits, in three hexadecimal digits. -/
def addressText (addr : Nat) : List Char := '0' :: ((hex 3 (addr % 0x1000)).toList ++ ['h'])

/-- Three digits are the digits of a number below 4096, after zeros. -/
theorem hex_three (h : n < 0x1000) :
    (hex 3 n).toList = [hexDigit (n / 256), hexDigit (n / 16 % 16), hexDigit (n % 16)] := by
  have hzero : hexDigit 0 = '0' := by decide
  rw [hex, String.toList_ofList]
  by_cases hone : n < 16
  · have hdigits : hexDigits n = [hexDigit n] := by rw [hexDigits, if_pos hone]
    rw [hdigits, show n / 256 = 0 by omega, show n / 16 % 16 = 0 by omega,
      Nat.mod_eq_of_lt hone, hzero]
    rfl
  · by_cases htwo : n < 256
    · have hdigits : hexDigits n = [hexDigit (n / 16), hexDigit (n % 16)] := by
        rw [hexDigits, if_neg hone, hexDigits, if_pos (by omega)]
        rfl
      rw [hdigits, show n / 256 = 0 by omega, show n / 16 % 16 = n / 16 by omega, hzero]
      rfl
    · have hdigits : hexDigits n
          = [hexDigit (n / 256), hexDigit (n / 16 % 16), hexDigit (n % 16)] := by
        rw [hexDigits, if_neg hone, hexDigits, if_neg (by omega), hexDigits, if_pos (by omega),
          Nat.div_div_eq_div_mul]
        rfl
      rw [hdigits]
      rfl

theorem toList_cellText (addr : Nat) : (cellText addr).toList = addressText addr := by
  rw [addressText, hex_three (Nat.mod_lt _ (by decide)), cellText, String.toList_ofList,
    show addr % 0x1000 / 256 = addr / 256 % 16 by omega,
    show addr % 0x1000 / 16 % 16 = addr / 16 % 16 by omega,
    show addr % 0x1000 % 16 = addr % 16 by omega]
  rfl

/-- A group with an address in its place. -/
def Group.replaced (group : Group) (addr : Nat) : List Char := group.before ++ addressText addr

/-- Groups with addresses in their places. -/
def replacedAll (groups : List Group) (addrs : List Nat) : List Char :=
  (groups.zip addrs).flatMap fun pair => pair.1.replaced pair.2

theorem Group.notMem_replaced (group : Group) (addr : Nat) : '(' ∉ group.replaced addr :=
  List.not_mem_append group.clear (toList_cellText addr ▸ notMem_cellText addr)

theorem notMem_replacedAll (groups : List Group) (addrs : List Nat) :
    '(' ∉ replacedAll groups addrs := by
  rw [replacedAll, List.mem_flatMap]
  rintro ⟨pair, -, hmem⟩
  exact pair.1.notMem_replaced pair.2 hmem

/-! ### One turn -/

theorem firstGroup?_text (group : Group) (cs : List Char) :
    firstGroup? (group.text ++ cs) = some (group.before, group.inner, cs) := by
  obtain ⟨before, inner, hbefore, hinner, hfilled⟩ := group
  have htext : before ++ '(' :: (inner ++ [')']) ++ cs = before ++ '(' :: (inner ++ ')' :: cs) := by
    simp
  obtain ⟨c, inner, rfl⟩ := List.exists_cons_of_ne_nil hfilled
  rw [firstGroup?, Group.text, htext, splitAt?_append hbefore]
  dsimp only
  rw [splitAt?_append hinner]

theorem IsRest.firstGroup?_eq (h : IsRest cs) : firstGroup? cs = none := by
  rw [firstGroup?]
  cases h with
  | plain h => rw [splitAt?_of_notMem h]
  | unclosed hbefore hbehind =>
    rw [splitAt?_append hbefore]
    dsimp only
    rw [splitAt?_of_notMem hbehind]
  | @empty before behind hbefore =>
    rw [splitAt?_append hbefore]
    rfl

/-- One turn replaces the first group, whatever stands before it. -/
theorem replaceFirst_group (hfront : '(' ∉ front) (group : Group) (cs : List Char) :
    replaceFirst addr? (front ++ (group.text ++ cs)) =
      (reference addr? group.inner).map fun addr =>
        some (front ++ group.replaced addr ++ cs) := by
  rw [← List.append_assoc, ← group.text_behind hfront, replaceFirst, firstGroup?_text]
  dsimp only [Group.behind]
  cases reference addr? group.inner with
  | error why => rfl
  | ok addr => simp [Except.map, Group.replaced, toList_cellText]

/-! ### All turns -/

theorem substitute_eq (addr? : String → Option Nat) (cs : List Char) :
    substitute addr? cs =
      match replaceFirst addr? cs with
      | .error why => .error why
      | .ok none => .ok cs
      | .ok (some next) => substitute addr? next := by
  rw [substitute]
  split <;> rename_i h <;> rw [h]

/-- The turns come to an end. -/
theorem wellFounded_replaceFirst (addr? : String → Option Nat) :
    WellFounded fun next cs => replaceFirst addr? cs = .ok (some next) :=
  Subrelation.wf (fun h => count_lt_of_replaceFirst h) (measure (List.count '(')).wf

theorem IsRest.substitute_eq (h : IsRest cs) : substitute addr? cs = .ok cs := by
  rw [Code.substitute_eq, replaceFirst, h.firstGroup?_eq]

theorem substitute_of_error {group : Group} {why : Complaint} (hfront : '(' ∉ front)
    (h : reference addr? group.inner = .error why) (cs : List Char) :
    substitute addr? (front ++ (group.text ++ cs)) = .error why := by
  rw [substitute_eq, replaceFirst_group hfront, h]
  rfl

theorem substitute_of_ok {group : Group} {addr : Nat} (hfront : '(' ∉ front)
    (h : reference addr? group.inner = .ok addr) (cs : List Char) :
    substitute addr? (front ++ (group.text ++ cs))
      = substitute addr? (front ++ group.replaced addr ++ cs) := by
  rw [substitute_eq, replaceFirst_group hfront, h]
  rfl

/-- The turns go along groups that stand for addresses.  What has been gone over has no parenthesis
any more, so the next turn finds the next group. -/
theorem substitute_groups {groups : List Group} {addrs : List Nat} (hfront : '(' ∉ front)
    (h : List.Forall₂ (fun group addr => reference addr? group.inner = .ok addr) groups addrs)
    (cs : List Char) :
    substitute addr? (front ++ (groups.flatMap Group.text ++ cs))
      = substitute addr? (front ++ replacedAll groups addrs ++ cs) := by
  induction h generalizing front with
  | nil => rw [List.flatMap_nil, replacedAll, List.zip_nil_left, List.flatMap_nil, List.append_nil,
      List.nil_append]
  | @cons group addr groups addrs hgroup _ ih =>
    have hnext : '(' ∉ front ++ group.replaced addr :=
      List.not_mem_append hfront (group.notMem_replaced addr)
    calc substitute addr? (front ++ ((group :: groups).flatMap Group.text ++ cs))
        = substitute addr? (front ++ (group.text ++ (groups.flatMap Group.text ++ cs))) := by
          rw [List.flatMap_cons, List.append_assoc]
      _ = substitute addr? (front ++ group.replaced addr
            ++ (groups.flatMap Group.text ++ cs)) := substitute_of_ok hfront hgroup _
      _ = substitute addr? (front ++ group.replaced addr
            ++ replacedAll groups addrs ++ cs) := ih hnext
      _ = substitute addr? (front ++ replacedAll (group :: groups) (addr :: addrs) ++ cs) := by
          rw [replacedAll, replacedAll, List.zip_cons_cons, List.flatMap_cons,
            List.append_assoc front]

end NibblePascal.Code
