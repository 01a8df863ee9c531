import NibblePascal.Proofs.Fragments.Inline
import NibblePascal.Proofs.Generation.Statement

/-!
# Names in inline assembly

* `Scope.Refers` and `Scope.Refuses`: the address that the text of a group stands for, or what is
  wrong with it; every text has one or the other;
* `Parted.substitute_of_refersAll`, `Parted.substitute_of_refuses`: what becomes of a parameter;
* `inline_names_replaced`: what becomes of a line of inline assembly with a parameter.
-/

namespace NibblePascal

open Code

/-! ### What the text of a group stands for -/

/-- The address of a visible name. -/
def Scope.address? (sc : Scope) (name : String) : Option Nat := (sc.find? name).map (·.addr)

/-- The address that the text of a group stands for: the one of a visible name and an offset of
sixteen bits, added modulo 65536. -/
inductive Scope.Refers (sc : Scope) (inner : List Char) : Nat → Prop
  | intro {name : String} {offset : List Char} {symbol : Symbol} {n : Nat}
      (hspells : Spells inner name offset) (hname : sc.find? name = some symbol)
      (hoffset : Decimal offset n) (hn : n ≤ 0xFFFF) :
      Refers sc inner ((symbol.addr + n) % 0x10000)

/-- What is wrong with the text of a group: it has no visible name, or its offset is no decimal
number of sixteen bits. -/
inductive Scope.Refuses (sc : Scope) (inner : List Char) : Complaint → Prop
  | name {name : String} {offset : List Char} (hspells : Spells inner name offset)
      (hname : sc.find? name = none) : Refuses sc inner (.unknownAsmName name)
  | offset {name : String} {offset : List Char} {symbol : Symbol}
      (hspells : Spells inner name offset) (hname : sc.find? name = some symbol)
      (hoffset : ∀ n, Decimal offset n → 0xFFFF < n) :
      Refuses sc inner (.invalidOffset (String.ofList offset))

variable {sc : Scope} {inner : List Char} {addr : Nat} {why : Complaint}

theorem Scope.Refers.reference_eq (h : sc.Refers inner addr) :
    Code.reference sc.address? inner = .ok addr := by
  obtain ⟨hspells, hname, hoffset, hn⟩ := h
  rw [hspells.reference_eq, address?, hname, numeralValue?_eq_some_iff.2 ⟨hoffset, hn⟩]
  rfl

theorem Scope.Refuses.reference_eq (h : sc.Refuses inner why) :
    Code.reference sc.address? inner = .error why := by
  cases h with
  | name hspells hname =>
    rw [hspells.reference_eq, address?, hname]
    rfl
  | @offset name offset symbol hspells hname hoffset =>
    have hnone : numeralValue? 0x10000 10 offset = none := by
      rw [Option.eq_none_iff_forall_ne_some]
      intro n hn
      have h := numeralValue?_eq_some_iff.1 hn
      exact absurd h.2 (Nat.not_le.2 (hoffset n h.1))
    rw [hspells.reference_eq, address?, hname, hnone]
    rfl

/-- The text of a group stands for an address, or something is wrong with it. -/
theorem Scope.refers_or_refuses (sc : Scope) (inner : List Char) :
    (∃ addr, sc.Refers inner addr) ∨ ∃ why, sc.Refuses inner why := by
  obtain ⟨name, offset, hspells⟩ := exists_spells inner
  cases hname : sc.find? name with
  | none => exact .inr ⟨_, .name hspells hname⟩
  | some symbol =>
    by_cases hoffset : ∃ n, Decimal offset n ∧ n ≤ 0xFFFF
    · obtain ⟨n, hoffset, hn⟩ := hoffset
      exact .inl ⟨_, .intro hspells hname hoffset hn⟩
    · refine .inr ⟨_, .offset hspells hname fun n hdecimal => Nat.lt_of_not_le fun hn => ?_⟩
      exact hoffset ⟨n, hdecimal, hn⟩

/-! ### Parameters and lines -/

section Lines

variable {groups earlier later : List Group} {group : Group} {addrs : List Nat}
  {cs rest command param : List Char} {line : Token}

/-- Each group stands for the address in its place. -/
def Scope.RefersAll (sc : Scope) : List Group → List Nat → Prop :=
  List.Forall₂ fun group addr => sc.Refers group.inner addr

theorem Scope.RefersAll.reference_eq (h : sc.RefersAll groups addrs) :
    List.Forall₂ (fun group addr => Code.reference sc.address? group.inner = .ok addr)
      groups addrs := h.imp fun _ _ hrefers => hrefers.reference_eq

theorem Scope.RefersAll.not_refuses (h : sc.RefersAll groups addrs) :
    ∀ group ∈ groups, ¬ sc.Refuses group.inner why := by
  induction h with
  | nil => exact List.forall_mem_nil _
  | cons hrefers _ ih =>
    refine List.forall_mem_cons.2 ⟨fun hrefuses => ?_, ih⟩
    cases hrefers.reference_eq.symm.trans hrefuses.reference_eq

/-- All groups stand for addresses, or there is a first one with something wrong. -/
theorem Scope.refersAll_or_refuses (sc : Scope) (groups : List Group) :
    (∃ addrs, sc.RefersAll groups addrs)
      ∨ ∃ earlier group later addrs why, groups = earlier ++ group :: later
        ∧ sc.RefersAll earlier addrs ∧ sc.Refuses group.inner why := by
  induction groups with
  | nil => exact .inl ⟨[], .nil⟩
  | cons group groups ih =>
    obtain ⟨addr, hrefers⟩ | ⟨why, hrefuses⟩ := sc.refers_or_refuses group.inner
    · obtain ⟨addrs, hall⟩ | ⟨earlier, first, later, addrs, why, rfl, hall, hrefuses⟩ := ih
      · exact .inl ⟨addr :: addrs, .cons hrefers hall⟩
      · exact .inr ⟨group :: earlier, first, later, addr :: addrs, why, rfl,
          .cons hrefers hall, hrefuses⟩
    · exact .inr ⟨[], group, groups, [], why, rfl, .nil, hrefuses⟩

theorem Code.Parted.substitute_of_refersAll (h : Parted cs groups rest)
    (hall : sc.RefersAll groups addrs) :
    substitute sc.address? cs = .ok (replacedAll groups addrs ++ rest) := by
  have hrun := substitute_groups List.not_mem_nil hall.reference_eq rest
  rw [h.eq]
  exact hrun.trans (h.isRest.behind (notMem_replacedAll groups addrs)).substitute_eq

theorem Code.Parted.substitute_of_refuses (h : Parted cs (earlier ++ group :: later) rest)
    (hall : sc.RefersAll earlier addrs) (hrefuses : sc.Refuses group.inner why) :
    substitute sc.address? cs = .error why := by
  have hrun := substitute_groups List.not_mem_nil hall.reference_eq
    (group.text ++ (later.flatMap Group.text ++ rest))
  rw [h.eq, List.flatMap_append, List.flatMap_cons, List.append_assoc, List.append_assoc]
  exact hrun.trans
    (substitute_of_error (notMem_replacedAll earlier addrs) hrefuses.reference_eq _)

theorem Gen.inlineLine_eq (line : Token) (g : Generator) :
    Gen.inlineLine line g =
      match g.scope.inlineLine line with
      | .ok l => .ok () (g.grow [l] g.stock)
      | .error why => .error (.fault (.source line.pos why)) g := by
  rw [Gen.inlineLine, Gen.bind_run (get_run g)]
  cases hl : g.scope.inlineLine line with
  | ok l =>
    rw [Scope.inlineLine] at hl
    simp only [hl]
    rfl
  | error why =>
    rw [Scope.inlineLine] at hl
    simp only [hl]
    rfl

/-- The line that a line of inline assembly with a parameter stands for. -/
theorem Scope.inlineLine_of_param (sc : Scope)
    (hline : trim line.text.toList = command ++ ' ' :: param) (hcommand : ' ' ∉ command)
    (hplain : command.head? ≠ some ';') :
    sc.inlineLine line = (substitute sc.address? param).map fun text =>
      .raw (String.ofList (trim command)) (some (String.ofList text)) := by
  have hhead : ((command ++ ' ' :: param).head? == some ';') = false := by
    cases command with
    | nil => rfl
    | cons c command => simpa using hplain
  show Code.inlineLine sc.address? line.text = _
  rw [Code.inlineLine, hline, hhead, splitAt?_append hcommand]
  rfl

/-- **Names in inline assembly.**  The parameter of a line is looked through again after each
replacement, and this comes to an end.  The parameter is made of groups and a rest.  The line is
passed on if every group stands for an address, and then each group has the text of its address in
its place and all the rest is as it was.  It is refused if and only if there is something wrong with
a group; then nothing is passed on, and the fault is that of the first such group. -/
theorem inline_names_replaced (g : Generator) (line : Token) (command param : List Char)
    (hline : trim line.text.toList = command ++ ' ' :: param) (hcommand : ' ' ∉ command)
    (hplain : command.head? ≠ some ';') :
    (WellFounded fun next cs => replaceFirst g.scope.address? cs = .ok (some next))
    ∧ (∃ groups rest, Parted param groups rest)
    ∧ ∀ groups rest, Parted param groups rest →
      (∀ g', Gen.inlineLine line g = .ok () g' ↔ ∃ addrs, g.scope.RefersAll groups addrs
        ∧ g' = g.grow [.raw (String.ofList (trim command))
          (some (String.ofList (replacedAll groups addrs ++ rest)))] g.stock)
      ∧ ((∃ stop g', Gen.inlineLine line g = .error stop g')
        ↔ ∃ group ∈ groups, ∃ why, g.scope.Refuses group.inner why)
      ∧ ∀ stop g', Gen.inlineLine line g = .error stop g' → g' = g
        ∧ ∃ earlier group later addrs why, groups = earlier ++ group :: later
          ∧ g.scope.RefersAll earlier addrs ∧ g.scope.Refuses group.inner why
          ∧ stop = .fault (.source line.pos why) := by
  have hrun := Gen.inlineLine_eq line g
  rw [g.scope.inlineLine_of_param hline hcommand hplain] at hrun
  refine ⟨wellFounded_replaceFirst _, exists_parted param, fun groups rest hparted => ?_⟩
  -- With addresses for all groups the line is passed on.
  have hpassed (g' : Generator) : (∃ addrs, g.scope.RefersAll groups addrs
      ∧ g' = g.grow [.raw (String.ofList (trim command))
        (some (String.ofList (replacedAll groups addrs ++ rest)))] g.stock) →
      Gen.inlineLine line g = .ok () g' := by
    rintro ⟨addrs, hall, rfl⟩
    rw [hrun, hparted.substitute_of_refersAll hall]
    rfl
  obtain ⟨addrs, hall⟩ | ⟨earlier, group, later, addrs, why, rfl, hall, hrefuses⟩ :=
    g.scope.refersAll_or_refuses groups
  · have hok := hpassed _ ⟨addrs, hall, rfl⟩
    refine ⟨fun g' => ⟨fun h => ?_, hpassed g'⟩, ⟨?_, ?_⟩, fun stop g' h => ?_⟩
    · rw [hok] at h
      cases h
      exact ⟨addrs, hall, rfl⟩
    · rintro ⟨stop, g', h⟩
      rw [hok] at h
      cases h
    · rintro ⟨group, hgroup, why, hrefuses⟩
      exact absurd hrefuses (hall.not_refuses group hgroup)
    · rw [hok] at h
      cases h
  · have hrefused : Gen.inlineLine line g = .error (.fault (.source line.pos why)) g := by
      rw [hrun, hparted.substitute_of_refuses hall hrefuses]
      rfl
    refine ⟨fun g' => ⟨fun h => ?_, hpassed g'⟩, ⟨fun _ => ?_, fun _ => ⟨_, g, hrefused⟩⟩,
      fun stop g' h => ?_⟩
    · rw [hrefused] at h
      cases h
    · exact ⟨group, List.mem_append_right _ List.mem_cons_self, why, hrefuses⟩
    · rw [hrefused] at h
      cases h
      exact ⟨rfl, earlier, group, later, addrs, why, rfl, hall, hrefuses, rfl⟩

/-- One sum leaves sixteen bits, the other one twelve, an offset has a sign and blanks around it,
and the empty parentheses end it all. -/
theorem inline_names_replaced_up_to_empty :
    let symbols : List Symbol :=
      [.scalar ⟨"a", .nibble, 3, "", false⟩, .array ⟨"t", .byte, 256, 4, 1, ""⟩]
    let g : Generator := { scope := { symbols := symbols } }
    let line : Token := ⟨.asmLine, "ADD (a+65535)(t + +3843)() (a)", ⟨"a.pas", 7⟩⟩
    trim line.text.toList = "ADD".toList ++ ' ' :: "(a+65535)(t + +3843)() (a)".toList
      ∧ Gen.inlineLine line g = .ok () (g.grow [.raw "ADD" (some "0002h0003h() (a)")] g.stock) := by
  intro symbols g line
  have hline : trim line.text.toList
      = "ADD".toList ++ ' ' :: "(a+65535)(t + +3843)() (a)".toList := by
    decide +kernel
  obtain ⟨-, -, hparts⟩ := inline_names_replaced g line _ _ hline (by decide) (by decide)
  have hrest : IsRest ([] ++ '(' :: ')' :: " (a)".toList) := .empty (by decide)
  obtain ⟨hpassed, -, -⟩ := hparts
    [⟨[], ['a'] ++ '+' :: "65535".toList, by decide, by decide, by decide⟩,
      ⟨[], "t ".toList ++ '+' :: " +3843".toList, by decide, by decide, by decide⟩] _
    ⟨by decide +kernel, hrest⟩
  have hdigits : ∀ c ∈ "65535".toList ++ "3843".toList, isDigit c = true :=
    List.all_eq_true.1 (by decide +kernel)
  rw [List.forall_mem_append] at hdigits
  have hlarge : Decimal "65535".toList 65535 := .inl ⟨by decide, hdigits.1, by decide +kernel⟩
  have hsigned : Decimal ('+' :: "3843".toList) 3843 :=
    .inr ⟨_, rfl, by decide, hdigits.2, by decide +kernel⟩
  have hfirst : g.scope.Refers (['a'] ++ '+' :: "65535".toList) 2 := by
    have hspells : Spells (['a'] ++ '+' :: "65535".toList) "a" "65535".toList :=
      .offset (by decide)
    have hname : g.scope.find? "a" = some (.scalar ⟨"a", .nibble, 3, "", false⟩) := rfl
    exact .intro hspells hname hlarge (by decide)
  have hsecond : g.scope.Refers ("t ".toList ++ '+' :: " +3843".toList) 0x1003 := by
    have hspells : Spells ("t ".toList ++ '+' :: " +3843".toList) "t" ('+' :: "3843".toList) :=
      .offset (by decide)
    have hname : g.scope.find? "t" = some (.array ⟨"t", .byte, 256, 4, 1, ""⟩) := rfl
    exact .intro hspells hname hsigned (by decide)
  exact ⟨hline, (hpassed _).2 ⟨[2, 0x1003], .cons hfirst (.cons hsecond .nil), by decide +kernel⟩⟩

end Lines

end NibblePascal
