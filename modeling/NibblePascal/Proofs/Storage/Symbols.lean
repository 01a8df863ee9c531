import NibblePascal.Storage.Scope

/-!
# Names in scope

Opening a block leaves the visible symbols and procedures as they are, a declaration puts one in
front, and closing a block takes some away.
-/

namespace NibblePascal

namespace Scope

variable {sc sc' : Scope} {x y : String} {symbol other : Symbol}

theorem find?_eq (sc : Scope) (x : String) : sc.find? x = sc.symbols.find? (·.name == x) := rfl

theorem mem_of_find? (h : sc.find? x = some symbol) : symbol ∈ sc.symbols ∧ symbol.name = x := by
  rw [find?_eq] at h
  exact ⟨List.mem_of_find?_eq_some h, by simpa using List.find?_some h⟩

theorem symbols_enter (sc : Scope) : sc.enter.symbols = sc.symbols := rfl

theorem symbols_leave_sublist (sc : Scope) : sc.leave.symbols.Sublist sc.symbols := by
  unfold leave
  split
  · exact .refl _
  · exact List.filter_sublist

theorem procedures_leave_sublist (sc : Scope) : sc.leave.procedures.Sublist sc.procedures := by
  unfold leave
  split
  · exact .refl _
  · exact List.filter_sublist

/-- All that a declaration can come to. -/
theorem declare?_eq_some_iff : sc.declare? symbol = some sc' ↔ sc.find? symbol.name = none
    ∧ sc' = ⟨symbol :: sc.symbols, sc.procedures,
      sc.blocks.modifyHead fun f => { f with symbols := symbol.name :: f.symbols }⟩ := by
  unfold declare?
  cases sc.find? symbol.name with
  | none => simp [eq_comm]
  | some other => simp

/-- All that the declaration of a procedure can come to. -/
theorem declareProcedure?_eq_some_iff : sc.declareProcedure? x = some sc' ↔
    sc.hasProcedure x = false ∧ sc' = ⟨sc.symbols, x :: sc.procedures,
      sc.blocks.modifyHead fun f => { f with procedures := x :: f.procedures }⟩ := by
  unfold declareProcedure?
  cases sc.hasProcedure x with
  | false => simp [eq_comm]
  | true => simp

theorem symbols_declare (h : sc.declare? symbol = some sc') :
    sc'.symbols = symbol :: sc.symbols := by
  obtain ⟨-, rfl⟩ := declare?_eq_some_iff.1 h
  rfl

theorem symbols_declareProcedure (h : sc.declareProcedure? x = some sc') :
    sc'.symbols = sc.symbols := by
  obtain ⟨-, rfl⟩ := declareProcedure?_eq_some_iff.1 h
  rfl

end Scope

end NibblePascal
