import NibblePascal.Assembly.Sequence
import NibblePascal.Code.Element
import NibblePascal.Code.Product
import NibblePascal.Code.Quotient
import NibblePascal.Code.Return
import NibblePascal.Code.Test
import NibblePascal.Storage.Allocator
import NibblePascal.Storage.Scope
import NibblePascal.Storage.Table

/-!
# The code generator

`Gen` is the monad of code generation.  Its state, the `Generator`, holds the code so far, the
memory given out, the number of labels in use, the names in scope and the procedures.  A
computation stops at a fault of the program or at a defect of the compiler, and the state up
to there is kept: the code before a fault is still an answer.

The functions below put the fragments of code into the sequence, with fresh labels and
temporaries where a fragment needs them.
-/

namespace NibblePascal

/-- A call site: the jump into the procedure and the label behind it. -/
structure Call where
  entry : EntryId
  ret : String
  deriving DecidableEq, Repr, Inhabited

/-- A procedure and its call sites so far. -/
structure Procedure where
  name : String
  label : String
  selector : Var
  calls : List Call := []
  /-- The line at the end of the body that the return dispatch replaces. -/
  finish : Option EntryId := none
  pos : Pos
  deriving DecidableEq, Repr, Inhabited

/-- The state of code generation. -/
structure Generator where
  code : Sequence := {}
  memory : Allocator := {}
  labels : Nat := 0
  scope : Scope := {}
  /-- The procedures in the order of their declarations. -/
  procedures : List Procedure := []
  deriving DecidableEq, Repr, Inhabited

/-- Why code generation stops. -/
inductive Stop
  | fault (why : Fault)
  | defect (why : Defect)
  deriving DecidableEq, Repr, Inhabited

/-- Computations that generate code. -/
abbrev Gen := EStateM Stop Generator

/-- The exits of a condition that still wait for their targets. -/
structure Branch where
  onTrue : List EntryId := []
  onFalse : List EntryId := []
  deriving DecidableEq, Repr, Inhabited

/-- Whether no exit waits any more. -/
def Branch.isResolved (b : Branch) : Bool := b.onTrue.isEmpty && b.onFalse.isEmpty

namespace Gen

/-! ### Lines and labels -/

/-- Stop at a fault of the program. -/
def fail {α : Type} (why : Fault) : Gen α := throw (.fault why)

/-- Stop at a fault of the program text. -/
def complain {α : Type} (pos : Pos) (why : Complaint) : Gen α := fail (.source pos why)

/-- Add lines to the code. -/
def emit (lines : List Line) : Gen Unit :=
  modify fun g => { g with code := g.code.append lines }

/-- Add a line to the code and answer its number. -/
def emitEntry (line : Line) : Gen EntryId :=
  modifyGet fun g => (g.code.next, { g with code := g.code.push line })

/-- Take `count` labels and answer the number of the first. -/
def newLabels (count : Nat) : Gen Nat :=
  modifyGet fun g => (g.labels, { g with labels := g.labels + count })

/-- Take a label. -/
def newLabel : Gen String := return Code.labelName (← newLabels 1)

/-- Put a label into the code. -/
def place (label : String) : Gen Unit := emit [.label label]

/-- Replace the code by an edited one. -/
def updateCode (f : Sequence → Except Defect Sequence) : Gen Unit := do
  let g ← get
  match f g.code with
  | .ok code => set { g with code := code }
  | .error why => throw (.defect why)

/-! ### Memory -/

/-- Ask the allocator for something.  It refuses a scalar by a sum of sixteen bits. -/
def allocate {α : Type} (f : Allocator → Except Fault α × Allocator) : Gen α := do
  let g ← get
  let (result, memory) := f g.memory
  set { g with memory := memory }
  match result with
  | .ok value => return value
  | .error why =>
      if memory.free + Width.word.cells < 0x10000 then fail why else throw (.defect .overflow)

/-- Report a shortage of memory at `pos` from now on. -/
def locate (pos : Pos) : Gen Unit := modify fun g => { g with memory := g.memory.locate pos }

/-- Take a temporary. -/
def temp (width : Width) : Gen Var := allocate (·.temp width)

/-- Put a temporary back without a mark in the code. -/
def recycle (v : Var) : Gen Unit := modify fun g => { g with memory := g.memory.release v }

/-- Put a temporary back and mark the place.  A declared scalar is left alone. -/
def free (v : Var) : Gen Unit := do
  if v.temp then
    recycle v
    emit [.release v.addr]

/-! ### Scalars -/

/-- `dst := src` between different widths. -/
def changeWidth (src dst : Var) : Gen Unit :=
  if src.width = dst.width then throw (.defect .equalWidths) else emit (Code.resize src dst)

/-- `dst := src` at any widths. -/
def store (src dst : Var) : Gen Unit :=
  if src.width = dst.width then emit (Code.assign src dst none) else changeWidth src dst

/-- A half of a scalar, in a temporary of half its width.  A nibble is both its halves. -/
def half (v : Var) (upper : Bool) : Gen Var := do
  let start := if upper then v.cells / 2 else 0
  match v.width with
  | .nibble => return v
  | .byte =>
      let res ← temp .nibble
      emit (Code.extract v start res)
      return res
  | .word =>
      let res ← temp .byte
      emit (Code.extract v start res)
      return res

/-- `z := x * y` for operands of one width. -/
def multiply (x y z : Var) : Gen Unit := do
  emit [Code.comment (z.name ++ " = " ++ x.name ++ " * " ++ y.name)]
  let a ← temp x.width
  let b ← temp x.width
  let n ← newLabels Code.productLabels
  emit (Code.product x y z a b n)
  recycle a
  recycle b

/-- `q := x / y`, or the remainder, for operands of one width. -/
def divide (x y q : Var) (remainder : Bool) : Gen Unit := do
  let sign := if remainder then "%" else "/"
  emit [Code.comment (q.name ++ " = " ++ x.name ++ " " ++ sign ++ " " ++ y.name)]
  let r ← temp x.width
  let w ← temp x.width
  let n ← newLabels Code.quotientLabels
  emit (Code.quotient x y q r w remainder n)
  recycle r
  recycle w

/-! ### Arrays -/

/-- `dst := arr[index]`. -/
def readElement (arr : ArrayVar) (index dst : Var) : Gen Unit := do
  let offset ← temp .byte
  emit (Code.readElement arr index dst offset)
  recycle offset

/-- `arr[index] := src`, where `src` has the width of the elements. -/
def writeElement (arr : ArrayVar) (index src : Var) : Gen Unit := do
  if arr.width ≠ src.width then throw (.defect .elementWidth)
  let offset ← temp .byte
  emit (Code.writeElement arr index src offset)
  recycle offset

/-- `dst := src` for arrays, where `src` is not the longer one. -/
def copyArray (src dst : ArrayVar) : Gen Unit := do
  emit [Code.comment (dst.name ++ " := " ++ src.name)]
  match src.checkedSize with
  | .ok _ => emit (Code.copyArray src dst)
  | .error why => throw (.defect why)

/-! ### Conditions -/

/-- Add a pending jump as an exit of a branch. -/
def addExit (b : Branch) (outcome : Bool) (kind : JumpKind) : Gen Branch := do
  let id ← emitEntry (Code.jump kind "")
  return if outcome then { b with onTrue := b.onTrue ++ [id] }
    else { b with onFalse := b.onFalse ++ [id] }

/-- Put the rest of a test into the code, adding its exits to a branch. -/
def emitTest (b : Branch) : List TestLine → Gen Branch
  | [] => return b
  | .line l :: rest => do
      emit [l]
      emitTest b rest
  | .exit outcome kind :: rest => do
      emitTest (← addExit b outcome kind) rest

/-- Give the exits for one outcome their target. -/
def resolve (b : Branch) (outcome : Bool) (label : String) : Gen Branch := do
  if outcome then
    updateCode (·.patchAll b.onTrue label)
    return { b with onTrue := [] }
  else
    updateCode (·.patchAll b.onFalse label)
    return { b with onFalse := [] }

/-- Give all exits their targets. -/
def resolveBoth (b : Branch) (yes no : String) : Gen Unit := do
  let b ← resolve b true yes
  let _ ← resolve b false no

/-- The test `a rel b` for scalars of one width. -/
def relation (a b : Var) (rel : Relation) : Gen Branch := do
  if a.width ≠ b.width then
    complain (← get).memory.here (.conditionTypesDiffer a.width b.width)
  let n ← newLabels (Code.relationLabels rel a)
  emitTest {} (Code.relationTest rel a b n)

/-- The test whether a scalar is odd. -/
def odd (v : Var) : Gen Branch := emitTest {} (Code.oddTest v)

/-- The test whether a scalar is not zero. -/
def nonzero (v : Var) : Gen Branch := emitTest {} (Code.nonzeroTest v)

/-! ### Procedures -/

/-- The procedure of a name. -/
def procedure? (name : String) : Gen (Option Procedure) :=
  return (← get).procedures.find? (·.name == name)

/-- Record a procedure, in its place if it is known already. -/
def putProcedure (p : Procedure) : Gen Unit :=
  modify fun g =>
    { g with
      procedures :=
        if g.procedures.any (·.name == p.name) then
          g.procedures.map fun q => if q.name == p.name then p else q
        else g.procedures ++ [p] }

/-- The label at the head of a procedure. -/
def procedureLabel (name : String) : String := "@proc_" ++ name

/-- Record a new procedure and give it a selector. -/
def openProcedure (name : String) (pos : Pos) : Gen Procedure := do
  let selector ← allocate (·.defineVar ("$procret_" ++ name) .nibble "")
  let p : Procedure :=
    { name := name, label := procedureLabel name, selector := selector, pos := pos }
  putProcedure p
  return p

/-- Call a procedure. -/
def call (p : Procedure) : Gen Unit := do
  let entry ← emitEntry (Code.jump .jmp p.label)
  let ret ← newLabel
  place ret
  putProcedure { p with calls := p.calls ++ [⟨entry, ret⟩] }

/-- End the body of a procedure. -/
def closeProcedure (p : Procedure) : Gen Unit := do
  let entry ← emitEntry (.inst .nop)
  emit [.endProc p.name]
  putProcedure { p with finish := some entry }

/-- The edits that make the calls of a procedure return. -/
def returnEdits (p : Procedure) : Except Defect (List (EntryId × Edit)) :=
  if p.calls.isEmpty then .ok []
  else
    match p.finish with
    | none => .error (.noEndMark p.name)
    | some finish =>
        let dispatch := Code.returnDispatch p.selector (p.calls.map (·.ret))
        let selects := p.calls.zipIdx.map fun (c, i) =>
          (c.entry, Edit.insertBefore (Code.selectCall p.selector i))
        .ok ((finish, .replace dispatch) :: if 1 < p.calls.length then selects else [])

/-- Make the calls of all procedures return. -/
def dispatch : Gen Unit := do
  let procedures := (← get).procedures
  match procedures.find? (fun p => Code.maxCalls < p.calls.length) with
  | some p => complain p.pos (.tooManyCalls p.name)
  | none =>
      updateCode fun code => do
        let edits ← procedures.mapM returnEdits
        code.splice edits.flatten

end Gen

end NibblePascal
