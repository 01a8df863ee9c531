import NibblePascal.Program.Statement

/-!
# Code for blocks and programs

A block gives its variables their cells, then come the bodies of its procedures and its own
statement, at its label.  What a block declares is in scope until its end.
-/

namespace NibblePascal

namespace Gen

/-- Bring a symbol into scope. -/
def declare (x : Token) (symbol : Symbol) : Gen Unit := do
  let g ← get
  match g.scope.declare? symbol with
  | some scope => set { g with scope := scope }
  | none => complain x.pos (.duplicateName x.text)

/-- Give a declared variable its cells and bring it into scope. -/
def declareVariable (block : String) (x : Token) (width : Width) (len : Option Nat) :
    Gen Unit := do
  locate x.pos
  match len with
  | some len =>
      let a ← allocate (·.defineArray x.text width len block)
      declare x (.array a)
  | none =>
      let v ← allocate (·.defineVar x.text width block)
      declare x (.scalar v)

/-- Bring a procedure into scope.  A name stays taken after its block has closed, since
labels are global. -/
def declareProcedure (p : Token) : Gen Unit := do
  let g ← get
  let fresh := if g.procedures.any (·.name == p.text) then none
    else g.scope.declareProcedure? p.text
  match fresh with
  | some scope =>
      set { g with scope := scope }
      locate p.pos
      let _ ← openProcedure p.text p.pos
  | none => complain p.pos (.duplicateProcedure p.text)

/-- Close the body of the procedure of a name. -/
def endProcedure (name : String) : Gen Unit := do
  match ← procedure? name with
  | some p => closeProcedure p
  | none => return ()

/-- Open a scope around a computation. -/
def inScope (code : Gen Unit) : Gen Unit := do
  modify fun g => { g with scope := g.scope.enter }
  code
  modify fun g => { g with scope := g.scope.leave }

end Gen

/-- Generate the code of a block with the given name, whose statement begins at `label`. -/
def Block.generate (label name : String) : Block → Gen Unit
  | fault why => Gen.fail why
  | code s => do
      Gen.place label
      s.generate
  | declare x width len rest => do
      Gen.declareVariable name x width len
      rest.generate label name
  | procedure p body close rest => do
      Gen.declareProcedure p
      Gen.inScope (body.generate (Gen.procedureLabel p.text) p.text)
      Gen.pass close
      Gen.endProcedure p.text
      rest.generate label name

/-- Generate the code of a program. -/
def Program.generate (p : Program) : Gen Unit := do
  Gen.emit Code.prologue
  Gen.inScope (p.block.generate "@main" "main")
  Gen.pass p.close
  Gen.dispatch

end NibblePascal
