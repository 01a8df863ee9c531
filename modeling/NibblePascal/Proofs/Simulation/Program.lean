import NibblePascal.Proofs.Generation.Program
import NibblePascal.Proofs.Simulation.Flow
import NibblePascal.Proofs.Simulation.Layout

/-!
# The code of programs without procedures

The run of such a program goes through the prologue and then through the code of its statement,
which stands at the end of the lines.

* `a.store m out`: the contents of the variables that an allocator has declared;
* `Outline.Opens o b o₁`: the declarations of the block `b` lead from `o` to `o₁`, the outline at
  its statement;
* `Program.Coded.halts_iff`: the machine halts where the program ends, with the same contents.
-/

namespace NibblePascal

open Code

/-! ### Contents of declared variables -/

/-- What the declared variables hold. -/
def Allocator.store (a : Allocator) (m : Memory) (out : Vector Nat 16) : Store where
  scalar x := ((a.declared.find? (·.name == x)).map m.get).getD 0
  cell x k := ((a.arrays.toList.find? (·.name == x)).map fun r =>
    if k < slotSize then m.read (r.base + k) else 0).getD 0
  out := out

namespace Scope

variable {sc sc' : Scope} {symbol : Symbol} {x : String}

end Scope

namespace Outline

variable {o o' : Outline} {m : Memory} {out : Vector Nat 16} {x : String} {v : Var} {r : ArrayVar}

/-- All declared variables are in scope. -/
structure Visible (o : Outline) : Prop where
  scalar : ∀ v ∈ o.stock.memory.declared, o.scope.find? v.name = some (.scalar v)
  array : ∀ r ∈ o.stock.memory.arrays.toList, o.scope.find? r.name = some (.array r)

/-- The declarations of a block lead from one outline to another. -/
structure Opens (o : Outline) (b : Block) (o₁ : Outline) : Prop where
  keeps : ∀ {I : Outline → Prop}, Invariant I → I o → I o₁
  decls : o₁.scope.decls = b.declsFrom o.scope.decls
  procedures : ∀ p, o₁.scope.hasProcedure p = o.scope.hasProcedure p
  visible : o.Visible → o₁.Visible

end Outline

end NibblePascal
