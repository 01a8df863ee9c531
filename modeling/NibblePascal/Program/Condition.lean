import NibblePascal.Program.Expression

/-!
# Code for conditions

`Cond.generate` puts the code of a condition behind the code so far and answers its exits,
whose targets the construct around it settles.  Both `and` and `or` leave out the code of
their second operand where the first one settles the outcome.

The operands of a chain of `or` share one pair of exits.  `Alternatives` is such a chain up to
the operand that comes next.
-/

namespace NibblePascal

/-- A chain of alternatives: the exits of the last one, and the labels for the outcomes of the
whole chain. -/
structure Alternatives where
  last : Branch
  yes : String
  no : String
  deriving DecidableEq, Repr, Inhabited

namespace Gen

/-- Lead the exits of a condition to a fresh pair of exits. -/
def merge (b : Branch) (yes no : String) : Gen Branch := do
  resolveBoth b yes no
  place yes
  let merged ← addExit {} true .jmp
  place no
  addExit merged false .jmp

/-- The code of one more alternative of a chain, to which the failure of the last one leads. -/
def alternative (chain : Alternatives) (code : Gen Branch) : Gen Branch := do
  let next ← newLabel
  place next
  let b ← code
  resolveBoth chain.last chain.yes next
  return b

/-- The code of a condition that ends the chain it stands in, if it stands in one. -/
def lastAlternative (chain : Option Alternatives) (code : Gen Branch) : Gen Branch :=
  match chain with
  | none => code
  | some chain => do
      let b ← alternative chain code
      merge b chain.yes chain.no

/-- The code of a conjunction. -/
def conjunction (lhs rhs : Gen Branch) : Gen Branch := do
  let first ← lhs
  let yes ← newLabel
  let no ← newLabel
  let next ← newLabel
  place next
  let second ← rhs
  resolveBoth first next no
  merge second yes no

end Gen

/-- Generate the code of a condition; `chain` is the chain of alternatives that it
continues. -/
def Cond.generateIn (chain : Option Alternatives) : Cond → Gen Branch
  | fault why => Gen.lastAlternative chain (Gen.fail why)
  | compare lhs rel rhs => Gen.lastAlternative chain do
      let a ← lhs.generate
      let b ← rhs.generate
      let (a, b) ← Gen.sameWidth a b
      let branch ← Gen.relation a b rel
      Gen.free a
      Gen.free b
      return branch
  | nonzero e => Gen.lastAlternative chain do
      let v ← e.generate
      let branch ← Gen.nonzero v
      Gen.free v
      return branch
  | odd e => Gen.lastAlternative chain do
      let v ← e.generate
      let branch ← Gen.odd v
      Gen.free v
      return branch
  | group c close => Gen.lastAlternative chain do
      let branch ← c.generateIn none
      Gen.pass close
      return branch
  | and lhs rhs => Gen.lastAlternative chain
      (Gen.conjunction (lhs.generateIn none) (rhs.generateIn none))
  | or lhs rhs =>
      match chain with
      | none => do
          let last ← lhs.generateIn none
          let yes ← Gen.newLabel
          let no ← Gen.newLabel
          rhs.generateIn (some ⟨last, yes, no⟩)
      | some chain => do
          let last ← Gen.alternative chain (lhs.generateIn none)
          rhs.generateIn (some { chain with last := last })

/-- Generate the code of a condition. -/
def Cond.generate (c : Cond) : Gen Branch := c.generateIn none

end NibblePascal
