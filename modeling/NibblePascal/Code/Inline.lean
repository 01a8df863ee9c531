import NibblePascal.Assembly.Line
import NibblePascal.Fault
import NibblePascal.Token.Number

/-!
# Lines of inline assembly

A line of inline assembly is a comment, a label, or a command with an optional parameter.  In
a parameter, `(name)` and `(name+n)` stand for the address of a variable.

`substitute` replaces the first of them and looks through the new parameter again, as long as there
is one.  It ends at a first parenthesis that is not closed or has nothing in it.  An address has no
parentheses, so there are fewer of them each time.
-/

namespace NibblePascal.Code

/-- The parts of a text before and after the first character `c`. -/
def splitAt? (c : Char) (cs : List Char) : Option (List Char × List Char) :=
  match cs.dropWhile (· != c) with
  | [] => none
  | _ :: rest => some (cs.takeWhile (· != c), rest)

theorem eq_append_of_splitAt? {c : Char} {cs before rest : List Char}
    (h : splitAt? c cs = some (before, rest)) : cs = before ++ c :: rest := by
  unfold splitAt? at h
  split at h
  · cases h
  · rename_i d behind heq
    simp only [Option.some.injEq, Prod.mk.injEq] at h
    obtain ⟨rfl, rfl⟩ := h
    have hd : d = c := by
      have hhead := List.head?_dropWhile_not (· != c) cs
      rw [heq] at hhead
      simpa using hhead
    rw [← hd, ← heq, hd, List.takeWhile_append_dropWhile]

/-- The address that the text between parentheses stands for: a name, or a name, a plus sign
and a decimal offset.  Addresses wrap at sixteen bits. -/
def reference (addr? : String → Option Nat) (inner : List Char) : Except Complaint Nat :=
  let (name, offset) := (splitAt? '+' inner).getD (inner, ['0'])
  let name := String.ofList (trim name)
  let offset := trim offset
  match addr? name with
  | none => .error (.unknownAsmName name)
  | some base =>
      match numeralValue? 0x10000 10 offset with
      | some n => .ok ((base + n) % 0x10000)
      | none => .error (.invalidOffset (String.ofList offset))

/-- The first group of a parameter: the text before its parenthesis, in it and behind it.  There
is none if the first parenthesis is not closed or has nothing in it. -/
def firstGroup? (cs : List Char) : Option (List Char × List Char × List Char) :=
  match splitAt? '(' cs with
  | none => none
  | some (before, tail) =>
      match splitAt? ')' tail with
      | none => none
      | some ([], _) => none
      | some (inner, rest) => some (before, inner, rest)

theorem eq_append_of_firstGroup? {cs before inner rest : List Char}
    (h : firstGroup? cs = some (before, inner, rest)) :
    cs = before ++ '(' :: (inner ++ ')' :: rest) := by
  unfold firstGroup? at h
  split at h
  · cases h
  · rename_i hopen
    split at h
    · cases h
    · cases h
    · rename_i hclose
      simp only [Option.some.injEq, Prod.mk.injEq] at h
      obtain ⟨rfl, rfl, rfl⟩ := h
      rw [eq_append_of_splitAt? hopen, eq_append_of_splitAt? hclose]

/-- A parameter with an address in the place of its first group, if it has one. -/
def replaceFirst (addr? : String → Option Nat) (cs : List Char) :
    Except Complaint (Option (List Char)) :=
  match firstGroup? cs with
  | none => .ok none
  | some (before, inner, rest) =>
      match reference addr? inner with
      | .ok addr => .ok (some (before ++ (cellText addr).toList ++ rest))
      | .error why => .error why

theorem notMem_cellText (addr : Nat) : '(' ∉ (cellText addr).toList := by
  have hdigit : ∀ d < 16, '(' ≠ hexDigit d := by decide
  have hlt : ∀ n, n % 16 < 16 := fun n => Nat.mod_lt n (by decide)
  simp [cellText, hdigit _ (hlt _)]

/-- Replacing a group takes its parenthesis away. -/
theorem count_lt_of_replaceFirst {addr? : String → Option Nat} {cs next : List Char}
    (h : replaceFirst addr? cs = .ok (some next)) : next.count '(' < cs.count '(' := by
  unfold replaceFirst at h
  split at h
  · cases h
  · rename_i before inner rest hgroup
    split at h
    · rename_i addr _
      simp only [Except.ok.injEq, Option.some.injEq] at h
      have haddr := List.count_eq_zero.2 (notMem_cellText addr)
      have hrest : (')' :: rest).count '(' = rest.count '(' := List.count_cons_of_ne (by decide)
      rw [← h, eq_append_of_firstGroup? hgroup]
      simp only [List.count_append, List.count_cons_self, haddr, hrest]
      omega
    · cases h

/-- A parameter with addresses in the place of names. -/
def substitute (addr? : String → Option Nat) (cs : List Char) :
    Except Complaint (List Char) :=
  match _hnext : replaceFirst addr? cs with
  | .error why => .error why
  | .ok none => .ok cs
  | .ok (some next) => substitute addr? next
termination_by cs.count '('
decreasing_by exact count_lt_of_replaceFirst _hnext

/-- The line of assembly that a line of inline assembly stands for. -/
def inlineLine (addr? : String → Option Nat) (line : String) : Except Complaint Line :=
  let cs := trim line.toList
  if cs.head? == some ';' then .ok (.comment (String.ofList cs))
  else
    match splitAt? ' ' cs with
    | none =>
        if cs.getLast? == some ':' then .ok (.label (String.ofList cs.dropLast))
        else .ok (.raw (String.ofList cs) none)
    | some (command, param) => do
        let param ← substitute addr? param
        return .raw (String.ofList (trim command)) (some (String.ofList param))

end NibblePascal.Code
