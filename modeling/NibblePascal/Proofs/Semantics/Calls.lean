import Mathlib.Logic.Relation
import NibblePascal.Program.Tree

/-!
# Which procedures a program calls

* `Stmt.callees` are the procedures that a statement calls;
* `Block.procedures b` are the procedures that a block declares, inner ones as well;
* `Block.calls caller b` are the calls in a block, each with the procedure it stands in;
* `CanReach calls p q`: through these calls, `p` can reach `q`;
* `Block.Acyclic b`: no procedure can reach itself through calls.
-/

namespace NibblePascal

/-- The procedures that a statement calls, in the order of the text. -/
def Stmt.callees : Stmt → List String
  | call p => [p.text]
  | seq first rest => first.callees ++ rest.callees
  | block body _ => body.callees
  | ifThen _ _ yes => yes.callees
  | ifElse _ _ yes no => yes.callees ++ no.callees
  | whileDo _ _ body => body.callees
  | repeatUntil body _ => body.callees
  | forDo _ _ _ _ _ body => body.callees
  | _ => []

/-- The procedures that a block declares, and those declared in them. -/
def Block.procedures : Block → List String
  | fault _ | code _ => []
  | declare _ _ _ rest => rest.procedures
  | procedure p body _ rest => p.text :: (body.procedures ++ rest.procedures)

/-- The calls in a block: who calls, and who is called.  The statements of the block itself
belong to `caller`, where `none` is the program. -/
def Block.calls (caller : Option String) : Block → List (Option String × String)
  | fault _ => []
  | code s => s.callees.map (caller, ·)
  | declare _ _ _ rest => rest.calls caller
  | procedure p body _ rest => body.calls (some p.text) ++ rest.calls caller

/-- The first procedure can reach the second one through the given calls. -/
def CanReach (calls : List (Option String × String)) : String → String → Prop :=
  Relation.TransGen fun caller callee => (some caller, callee) ∈ calls

/-- No procedure can reach itself through calls. -/
def Block.Acyclic (b : Block) : Prop := ∀ p, ¬ CanReach (b.calls none) p p

/-- Calls that all lead down have no cycle. -/
theorem Block.acyclic_of_rank {b : Block} (rank : String → Nat)
    (h : ∀ caller callee, (some caller, callee) ∈ b.calls none → rank callee < rank caller) :
    b.Acyclic := by
  have hdown : ∀ {p q}, CanReach (b.calls none) p q → rank q < rank p := by
    intro p q hpq
    induction hpq with
    | single hc => exact h _ _ hc
    | tail _ hc ih => exact Nat.lt_trans (h _ _ hc) ih
  exact fun p hp => Nat.lt_irrefl _ (hdown hp)

end NibblePascal
