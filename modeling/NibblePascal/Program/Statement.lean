import NibblePascal.Code.Inline
import NibblePascal.Program.Condition
import NibblePascal.Storage.Cells

/-!
# Code for statements

`Stmt.generate` puts the code of a statement behind the code so far.  Every temporary that a
statement takes goes back to its pool before the statement ends.
-/

namespace NibblePascal

namespace Gen

/-! ### Assignments -/

/-- Store constant cells into an array, if they fit; `why` is the complaint if not. -/
def fill (arr : ArrayVar) (cells : List Nat) (pos : Pos) (why : Complaint) : Gen Unit :=
  match arr.checkedSize with
  | .ok size => if size < cells.length then complain pos why else emit (Code.fillArray arr cells)
  | .error why => throw (.defect why)

/-- `arr := (values)`. -/
def fillList (x : Token) (values : List Nat) : Gen Unit := do
  let arr ← array x
  fill arr (valueCells arr.width values) x.pos (.tooShortForList arr.name)

/-- The characters of a text token between its quotes. -/
def unquote? (text : String) : Option (List Char) :=
  match text.toList with
  | '\'' :: cs => if cs.getLast? == some '\'' then some cs.dropLast else none
  | _ => none

/-- `arr := 'text'`. -/
def fillText (x text : Token) : Gen Unit := do
  let arr ← array x
  match unquote? text.text with
  | none => complain text.pos (.invalidText text.text)
  | some cs =>
      match textCells cs with
      | .error c => complain text.pos (.wideCharacter (String.singleton c))
      | .ok cells => fill arr cells text.pos (.tooShortForText arr.name text.text)

/-- `dst := src` for arrays. -/
def assignArray (x y : Token) : Gen Unit := do
  let dst ← array x
  let src ← array y
  if src.width ≠ dst.width then complain y.pos (.elementTypesDiffer dst.name src.name)
  if dst.len < src.len then complain y.pos (.tooShortForArray dst.name src.name)
  copyArray src dst

/-! ### Calls and inline assembly -/

/-- Call the procedure of a name. -/
def callNamed (p : Token) : Gen Unit := do
  match ← procedure? p.text with
  | some proc =>
      if (← get).scope.hasProcedure p.text then call proc
      else complain p.pos (.unknownProcedure p.text)
  | none => complain p.pos (.unknownProcedure p.text)

/-- Pass a line of inline assembly on. -/
def inlineLine (line : Token) : Gen Unit := do
  let scope := (← get).scope
  match Code.inlineLine (fun name => (scope.find? name).map (·.addr)) line.text with
  | .ok l => emit [l]
  | .error why => complain line.pos why

/-! ### Statements with bodies -/

/-- The exits of a condition that do not lead into the first branch, and the labels of the
second branch and of the end. -/
structure Choice where
  branch : Branch
  other : String
  exit : String

/-- The condition of a choice, up to the first branch; the gate is `then`. -/
def openChoice (c : Cond) (gate : Gate) : Gen Choice := do
  let then_ ← newLabel
  let else_ ← newLabel
  let exit ← newLabel
  let branch ← c.generate
  let branch ← resolve branch true then_
  pass gate
  place then_
  return ⟨branch, else_, exit⟩

/-- The end of a choice with one branch. -/
def closeChoice (k : Choice) : Gen Unit := do
  let _ ← resolve k.branch false k.exit
  place k.exit

/-- From the end of the first branch to the second one. -/
def otherwise (k : Choice) : Gen Unit := do
  let _ ← resolve k.branch false k.other
  emit [Code.jump .jmp k.exit]
  place k.other

/-- The labels at the start and behind the end of a loop. -/
structure Loop where
  start : String
  exit : String

/-- The condition of a loop, up to its body; the gate is `do`. -/
def openWhile (c : Cond) (gate : Gate) : Gen Loop := do
  let start ← newLabel
  let inside ← newLabel
  let exit ← newLabel
  place start
  let branch ← c.generate
  resolveBoth branch inside exit
  pass gate
  place inside
  return ⟨start, exit⟩

/-- The way back to the condition of a loop. -/
def closeWhile (k : Loop) : Gen Unit := do
  emit [Code.jump .jmp k.start]
  place k.exit

/-- The start of a loop whose condition comes last. -/
def openRepeat : Gen Loop := do
  let start ← newLabel
  let exit ← newLabel
  place start
  return ⟨start, exit⟩

/-- The condition after the body of a loop. -/
def closeRepeat (k : Loop) (c : Cond) : Gen Unit := do
  let branch ← c.generate
  resolveBoth branch k.exit k.start
  place k.exit

/-- A loop with a counter: the counter, the temporary that holds its limit, and the labels of
the test, of the step and of the end. -/
structure Counter where
  var : Var
  limit : Var
  test : String
  step : String
  exit : String

/-- The start of a loop with a counter, up to its body; the gate is `do`.  The counter is set
before the limit is computed. -/
def openFor (x : Token) (down : Bool) (first last : Expr) (gate : Gate) : Gen Counter := do
  let v ← scalar "for" x
  let from_ ← first.generate
  store from_ v
  free from_
  let bound ← last.generate
  let limit ← temp v.width
  store bound limit
  free bound
  pass gate
  let test ← newLabel
  let inside ← newLabel
  let step ← newLabel
  let exit ← newLabel
  place test
  let past ← relation v limit (if down then .lt else .gt)
  resolveBoth past exit inside
  place inside
  return ⟨v, limit, test, step, exit⟩

/-- The step of a counter after the body, unless the limit is reached. -/
def closeFor (k : Counter) (down : Bool) : Gen Unit := do
  let done ← relation k.var k.limit .eq
  resolveBoth done k.exit k.step
  place k.step
  emit (if down then Code.decrement k.var else Code.increment k.var)
  emit [Code.jump .jmp k.test]
  place k.exit
  free k.limit

end Gen

namespace StepOp

/-- The word of the statement. -/
def keyword : StepOp → String
  | shr => "shr"
  | shl => "shl"
  | inc => "inc"
  | dec => "dec"

/-- The code of the statement. -/
def code : StepOp → Var → List Line
  | shr => Code.shiftRight
  | shl => Code.shiftLeft
  | inc => Code.increment
  | dec => Code.decrement

end StepOp

/-- Generate the code of a statement. -/
def Stmt.generate : Stmt → Gen Unit
  | fault why => Gen.fail why
  | skip => return ()
  | seq first rest => do
      first.generate
      rest.generate
  | nop => Gen.emit [.inst .nop]
  | block body close => do
      body.generate
      Gen.pass close
  | assign x value => do
      let dst ← Gen.scalar x.text x
      let v ← value.generate
      Gen.store v dst
      Gen.free v
  | setElement x index value => do
      let arr ← Gen.array x
      let i ← index.generate
      let v ← value.generate
      let v ← Gen.convert v arr.width
      Gen.writeElement arr i v
      Gen.free i
      Gen.free v
  | fillList x values => Gen.fillList x values
  | fillText x text => Gen.fillText x text
  | copyArray x y => Gen.assignArray x y
  | call p => Gen.callNamed p
  | asm lines close => do
      lines.forM Gen.inlineLine
      Gen.pass close
  | ifThen c gate yes => do
      let k ← Gen.openChoice c gate
      yes.generate
      Gen.closeChoice k
  | ifElse c gate yes no => do
      let k ← Gen.openChoice c gate
      yes.generate
      Gen.otherwise k
      no.generate
      Gen.place k.exit
  | whileDo c gate body => do
      let k ← Gen.openWhile c gate
      body.generate
      Gen.closeWhile k
  | repeatUntil body c => do
      let k ← Gen.openRepeat
      body.generate
      Gen.closeRepeat k c
  | forDo x down first last gate body => do
      let k ← Gen.openFor x down first last gate
      body.generate
      Gen.closeFor k down
  | step op x => do
      let v ← Gen.scalar op.keyword x
      Gen.emit (op.code v)
  | output port value => do
      let v ← value.generate
      Gen.emit (Code.output port v)
      Gen.free v
  | input x gate port => do
      let v ← Gen.scalar "inp" x
      Gen.pass gate
      Gen.emit (Code.input port v)

end NibblePascal
