import NibblePascal.Proofs.Storage.Symbols

/-!
# Leaving a block restores the scope

Between the opening of a block and its end, names may be declared and other blocks opened and closed
again.  All blocks share one table of names, and the end of a block takes every name out of it that
the block has noted.  It is essential that a declaration is refused, and not noted, if its name is
visible: otherwise the end of the block would take away the name of an outer one.

* `Change`, `applyAll`: the calls on a scope, one after the other;
* `nesting`: the number of blocks that some changes leave open, as long as they close no others;
* `s.under layers`: the scope `s` with what the blocks opened since have declared on top of it.
  Every change keeps `s` under layers of names that are new, `Inside.apply`.
-/

namespace NibblePascal

namespace Scope

/-- A call on a scope. -/
inductive Change
  | enter
  | leave
  | declare (symbol : Symbol)
  | declareProcedure (name : String)

namespace Change

/-- Make a change.  A declaration that is refused leaves the scope as it is. -/
def apply (s : Scope) : Change → Scope
  | enter => s.enter
  | leave => s.leave
  | declare symbol => (s.declare? symbol).getD s
  | declareProcedure name => (s.declareProcedure? name).getD s

/-- The number of open blocks after a change, if it closes none but these. -/
def depth? (n : Nat) : Change → Option Nat
  | enter => some (n + 1)
  | leave => if n = 0 then none else some (n - 1)
  | declare _ | declareProcedure _ => some n

end Change

/-- Make changes one after the other. -/
def applyAll (s : Scope) (cs : List Change) : Scope := cs.foldl Change.apply s

/-- The number of open blocks after some changes, if they close none but these. -/
def nesting (n : Nat) (cs : List Change) : Option Nat := cs.foldlM Change.depth? n

/-- Every block that is opened is closed, and no other one is. -/
def Balanced (cs : List Change) : Prop := nesting 0 cs = some 0

/-- Whatever is visible in `s` is so in `t`, and stands for the same. -/
structure Extends (s t : Scope) : Prop where
  find? : ∀ {name symbol}, s.find? name = some symbol → t.find? name = some symbol
  hasProcedure : ∀ {name}, s.hasProcedure name = true → t.hasProcedure name = true

variable {s t : Scope} {name : String} {symbol : Symbol}

/-! ### Declarations -/

/-- A symbol is declared exactly if its name is not visible. -/
theorem isSome_declare?_iff : (s.declare? symbol).isSome ↔ s.find? symbol.name = none := by
  unfold declare?
  cases s.find? symbol.name <;> simp

/-- A procedure is declared exactly if its name is not visible. -/
theorem isSome_declareProcedure?_iff :
    (s.declareProcedure? name).isSome ↔ s.hasProcedure name = false := by
  unfold declareProcedure?
  cases s.hasProcedure name <;> simp

/-- A name that is visible stays what it is, and the new one is added to the others. -/
theorem find?_apply_declare (s : Scope) (symbol : Symbol) (name : String) :
    ((Change.declare symbol).apply s).find? name
      = (s.find? name).or (if name = symbol.name then some symbol else none) := by
  cases hs : s.declare? symbol with
  | none =>
    rw [Change.apply, hs, Option.getD_none]
    split
    · rename_i hname
      subst hname
      cases hfind : s.find? symbol.name with
      | none => simp [← isSome_declare?_iff, hs] at hfind
      | some other => rfl
    · rw [Option.or_none]
  | some s' =>
    obtain ⟨hnone, rfl⟩ := declare?_eq_some_iff.1 hs
    rw [Change.apply, hs, Option.getD_some, find?_eq, List.find?_cons]
    by_cases hname : name = symbol.name
    · subst hname
      simp [hnone]
    · have hbeq : (symbol.name == name) = false := by simpa using Ne.symm hname
      simp [hbeq, hname, find?_eq]

theorem hasProcedure_apply_declare (s : Scope) (symbol : Symbol) (name : String) :
    ((Change.declare symbol).apply s).hasProcedure name = s.hasProcedure name := by
  cases hs : s.declare? symbol with
  | none => rw [Change.apply, hs, Option.getD_none]
  | some s' =>
    obtain ⟨-, rfl⟩ := declare?_eq_some_iff.1 hs
    rw [Change.apply, hs]
    rfl

theorem find?_apply_declareProcedure (s : Scope) (procedure name : String) :
    ((Change.declareProcedure procedure).apply s).find? name = s.find? name := by
  cases hs : s.declareProcedure? procedure with
  | none => rw [Change.apply, hs, Option.getD_none]
  | some s' =>
    obtain ⟨-, rfl⟩ := declareProcedure?_eq_some_iff.1 hs
    rw [Change.apply, hs]
    rfl

theorem hasProcedure_apply_declareProcedure (s : Scope) (procedure name : String) :
    ((Change.declareProcedure procedure).apply s).hasProcedure name
      = (s.hasProcedure name || name == procedure) := by
  cases hs : s.declareProcedure? procedure with
  | none =>
    rw [Change.apply, hs, Option.getD_none]
    by_cases hname : name = procedure
    · subst hname
      cases hhas : s.hasProcedure name with
      | false => simp [← isSome_declareProcedure?_iff, hs] at hhas
      | true => rfl
    · simp [hname]
  | some s' =>
    obtain ⟨-, rfl⟩ := declareProcedure?_eq_some_iff.1 hs
    rw [Change.apply, hs, Option.getD_some, hasProcedure, hasProcedure, List.contains_cons,
      Bool.or_comm]

/-! ### Blocks on top of a scope -/

/-- What one block has declared, the last first. -/
structure Layer where
  symbols : List Symbol := []
  procedures : List String := []

/-- The names that a block has noted. -/
def Layer.frame (l : Layer) : Frame := ⟨l.symbols.map (·.name), l.procedures⟩

/-- A scope under what some blocks have declared, the innermost first. -/
def under (s : Scope) (layers : List Layer) : Scope where
  symbols := layers.flatMap (·.symbols) ++ s.symbols
  procedures := layers.flatMap (·.procedures) ++ s.procedures
  blocks := layers.map Layer.frame ++ s.blocks

/-- A block has declared nothing that was visible when it was opened. -/
structure Layer.New (l : Layer) (s : Scope) : Prop where
  symbols : ∀ symbol ∈ l.symbols, s.find? symbol.name = none
  procedures : ∀ name ∈ l.procedures, s.hasProcedure name = false

/-- Every block has declared nothing but new names. -/
def AllNew (s : Scope) : List Layer → Prop
  | [] => True
  | l :: layers => l.New (s.under layers) ∧ s.AllNew layers

/-- The scope `t` is `s` under `n + 1` blocks of new names. -/
def Inside (s : Scope) (n : Nat) (t : Scope) : Prop :=
  ∃ layers, layers.length = n + 1 ∧ t = s.under layers ∧ s.AllNew layers

variable {l : Layer} {layers : List Layer} {c : Change} {cs : List Change} {m n : Nat}

theorem find?_under_cons (s : Scope) (l : Layer) (layers : List Layer) (name : String) :
    (s.under (l :: layers)).find? name
      = (l.symbols.find? (·.name == name)).or ((s.under layers).find? name) := by
  simp only [find?_eq, under, List.flatMap_cons, List.append_assoc, List.find?_append]

theorem hasProcedure_under_cons (s : Scope) (l : Layer) (layers : List Layer) (name : String) :
    (s.under (l :: layers)).hasProcedure name
      = (l.procedures.contains name || (s.under layers).hasProcedure name) := by
  simp only [hasProcedure, under, List.flatMap_cons, List.append_assoc, List.contains_append]

/-- To take away the keys of the first part leaves the second one, if the two share none. -/
theorem filter_append_of_disjoint {α : Type} (key : α → String) {declared rest : List α}
    (h : ∀ a ∈ declared, ∀ b ∈ rest, key b ≠ key a) :
    (declared ++ rest).filter (fun a => !(declared.map key).contains (key a)) = rest := by
  rw [List.filter_append, List.filter_eq_nil_iff.2, List.nil_append, List.filter_eq_self.2]
  · intro b hb
    simp only [Bool.not_eq_true', List.contains_eq_mem, decide_eq_false_iff_not, List.mem_map,
      not_exists, not_and]
    exact fun a ha => (h a ha b hb).symm
  · intro a ha
    simpa using ⟨a, ha, rfl⟩

/-- The end of the innermost block takes away its layer, and nothing of what is below. -/
theorem leave_under (h : l.New (s.under layers)) :
    (s.under (l :: layers)).leave = s.under layers := by
  have hsymbols : (l.symbols ++ (s.under layers).symbols).filter
      (fun symbol => !(l.symbols.map (·.name)).contains symbol.name)
        = (s.under layers).symbols := by
    apply filter_append_of_disjoint
    intro symbol hsymbol other hother hname
    simpa [hname] using List.find?_eq_none.1 (h.symbols symbol hsymbol) other hother
  have hprocedures : (l.procedures ++ (s.under layers).procedures).filter
      (fun name => !l.procedures.contains name) = (s.under layers).procedures := by
    have hne : ∀ name ∈ l.procedures, ∀ other ∈ (s.under layers).procedures, other ≠ name := by
      rintro name hname _ hother rfl
      simpa [hasProcedure, hother] using h.procedures _ hname
    -- a procedure is noted under its own text
    simpa using filter_append_of_disjoint id hne
  simp only [under, leave, List.map_cons, List.cons_append, List.flatMap_cons, List.append_assoc,
    Layer.frame] at hsymbols hprocedures ⊢
  rw [hsymbols, hprocedures]

/-- New names hide none of those below. -/
theorem AllNew.extends (h : s.AllNew layers) : s.Extends (s.under layers) := by
  induction layers with
  | nil => exact ⟨id, id⟩
  | cons l layers ih =>
    obtain ⟨hnew, hlayers⟩ := h
    refine ⟨fun {name symbol} hname => ?_, fun {name} hname => ?_⟩
    · have hbelow := (ih hlayers).find? hname
      have hfree : l.symbols.find? (·.name == name) = none := by
        rw [List.find?_eq_none]
        intro other hother hbeq
        have hnone := hnew.symbols other hother
        rw [beq_iff_eq.1 hbeq, hbelow] at hnone
        cases hnone
      rw [find?_under_cons, hfree, hbelow, Option.none_or]
    · rw [hasProcedure_under_cons, (ih hlayers).hasProcedure hname, Bool.or_true]

theorem inside_enter (s : Scope) : s.Inside 0 s.enter := by
  refine ⟨[{}], rfl, rfl, ⟨?_, ?_⟩, trivial⟩ <;> simp

theorem Inside.extends (h : s.Inside n t) : s.Extends t := by
  obtain ⟨layers, -, rfl, hnew⟩ := h
  exact hnew.extends

/-- The end of the last block gives back the scope. -/
theorem Inside.leave_eq (h : s.Inside 0 t) : t.leave = s := by
  obtain ⟨layers, hlen, rfl, hnew⟩ := h
  obtain ⟨l, rfl⟩ := List.length_eq_one_iff.1 hlen
  exact leave_under hnew.1

theorem Inside.enter (h : s.Inside n t) : s.Inside (n + 1) t.enter := by
  obtain ⟨layers, hlen, rfl, hnew⟩ := h
  refine ⟨{} :: layers, by simpa using hlen, rfl, ⟨?_, ?_⟩, hnew⟩ <;> simp

theorem Inside.leave (h : s.Inside (n + 1) t) : s.Inside n t.leave := by
  obtain ⟨_ | ⟨l, layers⟩, hlen, rfl, hnew⟩ := h
  · cases hlen
  · exact ⟨layers, Nat.succ.inj hlen, leave_under hnew.1, hnew.2⟩

/-- A declaration adds to the innermost block, and what it adds was visible nowhere. -/
theorem Inside.declare (h : s.Inside n t) (symbol : Symbol) :
    s.Inside n ((Change.declare symbol).apply t) := by
  cases hdeclare : t.declare? symbol with
  | none => rwa [Change.apply, hdeclare]
  | some t' =>
    obtain ⟨hnone, rfl⟩ := declare?_eq_some_iff.1 hdeclare
    obtain ⟨_ | ⟨l, layers⟩, hlen, rfl, hnew⟩ := h
    · cases hlen
    refine ⟨{ l with symbols := symbol :: l.symbols } :: layers, hlen, ?_, ⟨?_, ?_⟩, hnew.2⟩
    · rw [Change.apply, hdeclare]
      rfl
    · rw [find?_under_cons, Option.or_eq_none_iff] at hnone
      rintro other (_ | ⟨_, hother⟩)
      · exact hnone.2
      · exact hnew.1.symbols other hother
    · exact hnew.1.procedures

theorem Inside.declareProcedure (h : s.Inside n t) (name : String) :
    s.Inside n ((Change.declareProcedure name).apply t) := by
  cases hdeclare : t.declareProcedure? name with
  | none => rwa [Change.apply, hdeclare]
  | some t' =>
    obtain ⟨hnone, rfl⟩ := declareProcedure?_eq_some_iff.1 hdeclare
    obtain ⟨_ | ⟨l, layers⟩, hlen, rfl, hnew⟩ := h
    · cases hlen
    refine ⟨{ l with procedures := name :: l.procedures } :: layers, hlen, ?_, ⟨?_, ?_⟩, hnew.2⟩
    · rw [Change.apply, hdeclare]
      rfl
    · exact hnew.1.symbols
    · rw [hasProcedure_under_cons, Bool.or_eq_false_iff] at hnone
      rintro other (_ | ⟨_, hother⟩)
      · exact hnone.2
      · exact hnew.1.procedures other hother

/-- One change, which closes none but the blocks above `s`. -/
theorem Inside.apply (h : s.Inside n t) (hc : c.depth? n = some m) : s.Inside m (c.apply t) := by
  cases c with
  | enter =>
    cases hc
    exact h.enter
  | leave =>
    cases n with
    | zero => cases hc
    | succ n =>
      cases hc
      exact h.leave
  | declare symbol =>
    cases hc
    exact h.declare symbol
  | declareProcedure name =>
    cases hc
    exact h.declareProcedure name

/-- Many changes. -/
theorem Inside.applyAll (h : s.Inside n t) (hcs : nesting n cs = some m) :
    s.Inside m (t.applyAll cs) := by
  induction cs generalizing n t with
  | nil =>
    cases hcs
    exact h
  | cons c cs ih =>
    rw [nesting, List.foldlM_cons] at hcs
    obtain ⟨k, hk, hcs⟩ := Option.bind_eq_some_iff.1 hcs
    exact ih (h.apply hk) hcs

/-- A beginning of changes that have a nesting has one. -/
theorem exists_nesting_of_append {before after : List Change}
    (h : nesting n (before ++ after) = some m) : ∃ k, nesting n before = some k := by
  rw [nesting, List.foldlM_append] at h
  obtain ⟨k, hk, -⟩ := Option.bind_eq_some_iff.1 h
  exact ⟨k, hk⟩

/-- **Leaving a block restores the scope.**  After balanced changes in a block, its end gives back
the scope it was opened in, and all the time whatever was visible there stays so.  A declaration is
accepted exactly if its name is not visible among those of its kind, a refused one changes nothing,
and an accepted one makes its name visible, without a change to any other of either kind. -/
theorem leave_restores (s : Scope) {cs : List Change} (hcs : Balanced cs) :
    (s.enter.applyAll cs).leave = s
    ∧ (∀ before, before <+: cs → s.Extends (s.enter.applyAll before))
    ∧ (∀ (r : Scope) (symbol : Symbol),
      ((r.declare? symbol).isSome ↔ r.find? symbol.name = none)
      ∧ (r.declare? symbol = none → (Change.declare symbol).apply r = r)
      ∧ ∀ name, ((Change.declare symbol).apply r).find? name
          = (r.find? name).or (if name = symbol.name then some symbol else none)
        ∧ ((Change.declare symbol).apply r).hasProcedure name = r.hasProcedure name)
    ∧ (∀ (r : Scope) (procedure : String),
      ((r.declareProcedure? procedure).isSome ↔ r.hasProcedure procedure = false)
      ∧ (r.declareProcedure? procedure = none → (Change.declareProcedure procedure).apply r = r)
      ∧ ∀ name, ((Change.declareProcedure procedure).apply r).hasProcedure name
          = (r.hasProcedure name || name == procedure)
        ∧ ((Change.declareProcedure procedure).apply r).find? name = r.find? name) := by
  refine ⟨(s.inside_enter.applyAll hcs).leave_eq, ?_, ?_, ?_⟩
  · rintro before ⟨after, rfl⟩
    obtain ⟨n, hn⟩ := exists_nesting_of_append hcs
    exact (s.inside_enter.applyAll hn).extends
  · intro r symbol
    refine ⟨isSome_declare?_iff, fun h => ?_, fun name => ⟨?_, ?_⟩⟩
    · rw [Change.apply, h, Option.getD_none]
    · exact find?_apply_declare r symbol name
    · exact hasProcedure_apply_declare r symbol name
  · intro r procedure
    refine ⟨isSome_declareProcedure?_iff, fun h => ?_, fun name => ⟨?_, ?_⟩⟩
    · rw [Change.apply, h, Option.getD_none]
    · exact hasProcedure_apply_declareProcedure r procedure name
    · exact find?_apply_declareProcedure r procedure name

/-- In a block under `x` and the procedure `p`, a second `x` is refused; a block within it declares
a procedure `x` and is refused a second `p`. -/
theorem leave_restores_after_refusals :
    let x : Symbol := .scalar { name := "x", width := .nibble, addr := 0 }
    let y : Symbol := .scalar { name := "y", width := .nibble, addr := 1 }
    let s : Scope := ⟨[x], ["p"], [⟨["x"], ["p"]⟩]⟩
    let cs : List Change := [.declare x, .declare y, .enter, .declareProcedure "x",
      .declareProcedure "p", .leave]
    Balanced cs ∧ (s.enter.applyAll cs).find? "y" = some y
      ∧ (s.enter.applyAll (cs.take 4)).hasProcedure "x" = true
      ∧ (s.enter.applyAll cs).leave = s := by
  intro x y s cs
  have hcs : Balanced cs := rfl
  exact ⟨hcs, by decide, by decide, (leave_restores s hcs).1⟩

end Scope

end NibblePascal
