import Mathlib.Algebra.Group.Nat.Defs
import Mathlib.Logic.Function.Basic
import NibblePascal.Program.Statement

/-!
# What programs mean

The meaning of programs without procedures, stated on their trees and without regard to code.
Numbers are unsigned and have a width, the number of cells that hold them; every result wraps
at its width.

* `Decls` says what the names of a program stand for, and a `Store` what they hold;
* `Expr.value` and `Cond.truth` are the values of expressions and conditions.  A division by
  zero never ends, so there is no value;
* `Task.Runs`: a statement leads from a store to a store.  Inline assembly and calls have no
  rules;
* `Program.Runs`: so does a program without procedures.
-/

namespace NibblePascal

/-! ### Names and what they hold -/

/-- What a name is declared as. -/
inductive Decl
  | scalar (width : Width)
  | array (width : Width) (len : Nat)
  deriving DecidableEq, Repr

/-- The declared names. -/
abbrev Decls := String → Option Decl

/-- The width of a declared scalar. -/
def Decls.scalar? (D : Decls) (x : String) : Option Width :=
  match D x with
  | some (.scalar w) => some w
  | _ => none

/-- The element width and the length of a declared array. -/
def Decls.array? (D : Decls) (x : String) : Option (Width × Nat) :=
  match D x with
  | some (.array w len) => some (w, len)
  | _ => none

/-- A number with its width. -/
structure Val where
  width : Width
  num : Nat
  deriving DecidableEq, Repr

/-- The contents of scalars, of the cells of arrays and of the output ports. -/
@[ext] structure Store where
  scalar : String → Nat
  cell : String → Nat → Nat
  out : Vector Nat 16

/-- The number in the first `count` cells, the lowest first. -/
def joinCells (f : Nat → Nat) : Nat → Nat
  | 0 => 0
  | count + 1 => joinCells f count + f count * 16 ^ count

/-- The first cell of an element: indices wrap at the end of the slot. -/
def Width.elementCell (w : Width) (index : Nat) : Nat := index * w.cells % slotSize

namespace Store

def setScalar (σ : Store) (x : String) (n : Nat) : Store :=
  { σ with scalar := Function.update σ.scalar x n }

/-- Change the cells of an array. -/
def setCells (σ : Store) (x : String) (f : Nat → Nat) : Store :=
  { σ with cell := Function.update σ.cell x f }

/-- The element of an array. -/
def element (σ : Store) (x : String) (w : Width) (index : Nat) : Nat :=
  joinCells (fun k => σ.cell x (w.elementCell index + k)) w.cells

/-- `x[index] := n`. -/
def setElement (σ : Store) (x : String) (w : Width) (index n : Nat) : Store :=
  σ.setCells x fun k =>
    if w.elementCell index ≤ k ∧ k < w.elementCell index + w.cells
    then n / 16 ^ (k - w.elementCell index) % 16 else σ.cell x k

/-- Put cells into an array, from its first cell on. -/
def fill (σ : Store) (x : String) (cells : List Nat) : Store :=
  σ.setCells x fun k => cells[k]?.getD (σ.cell x k)

/-- Copy the first `count` cells of an array. -/
def copy (σ : Store) (dst src : String) (count : Nat) : Store :=
  σ.setCells dst fun k => if k < count then σ.cell src k else σ.cell dst k

/-- Write to a port. -/
def output (σ : Store) (port n : Nat) : Store := { σ with out := σ.out.setIfInBounds port n }

end Store

/-! ### Expressions -/

/-- The wider one of two widths. -/
def Width.wider (v w : Width) : Width := if v.isBelow w then w else v

/-- The lower or upper half of a number; a nibble is not split. -/
def Val.half (upper : Bool) (x : Val) : Val :=
  match x.width with
  | .nibble => x
  | .byte => ⟨.nibble, if upper then x.num / 0x10 else x.num % 0x10⟩
  | .word => ⟨.byte, if upper then x.num / 0x100 else x.num % 0x100⟩

/-- The two's complement of a number as a word. -/
def Val.negated (n : Nat) : Val := ⟨.word, (0x10000 - n) % 0x10000⟩

/-- The result of an operator on numbers below `limit`. -/
def BinaryOp.apply (op : BinaryOp) (limit a b : Nat) : Option Nat :=
  match op with
  | add => some ((a + b) % limit)
  | sub => some ((a + limit - b) % limit)
  | and => some (a &&& b)
  | or => some (a ||| b)
  | xor => some (a ^^^ b)
  | mul => some (a * b % limit)
  | div => if b = 0 then none else some (a / b)
  | mod => if b = 0 then none else some (a % b)

/-- The value of an expression. -/
def Expr.value (D : Decls) (σ : Store) : Expr → Option Val
  | fault _ => none
  | scalar x => (D.scalar? x.text).map (⟨·, σ.scalar x.text⟩)
  | literal _ n => some ⟨.fit n, n % (Width.fit n).limit⟩
  | negLiteral _ n => some (.negated n)
  | element x index _ => do
      let (w, _) ← D.array? x.text
      let i ← index.value D σ
      return ⟨w, σ.element x.text w i.num⟩
  | half _ upper x _ => (D.scalar? x.text).map fun w => Val.half upper ⟨w, σ.scalar x.text⟩
  | paren e _ => e.value D σ
  | negate e => (e.value D σ).map fun x => .negated x.num
  | binary op lhs rhs => do
      let a ← lhs.value D σ
      let b ← rhs.value D σ
      let w := a.width.wider b.width
      (op.apply w.limit a.num b.num).map (⟨w, ·⟩)

/-- Whether a condition holds. -/
def Cond.truth (D : Decls) (σ : Store) : Cond → Option Bool
  | fault _ => none
  | compare lhs rel rhs => do
      let a ← lhs.value D σ
      let b ← rhs.value D σ
      return rel.holds a.num b.num
  | nonzero e => (e.value D σ).map fun x => x.num != 0
  | odd e => (e.value D σ).map fun x => x.num % 2 == 1
  | group c _ => c.truth D σ
  | and lhs rhs => do if ← lhs.truth D σ then rhs.truth D σ else return false
  | or lhs rhs => do if ← lhs.truth D σ then return true else rhs.truth D σ

/-! ### Statements -/

/-- The number that a scalar of a width holds after a step. -/
def StepOp.apply (op : StepOp) (limit n : Nat) : Nat :=
  match op with
  | shr => n / 2
  | shl => 2 * n % limit
  | inc => (n + 1) % limit
  | dec => (n + limit - 1) % limit

/-- The store after a statement that is made of no others. -/
def Stmt.effect (D : Decls) (inp : Vector Nat 16) (σ : Store) : Stmt → Option Store
  | skip | nop => some σ
  | assign x e => do
      let w ← D.scalar? x.text
      let v ← e.value D σ
      return σ.setScalar x.text (v.num % w.limit)
  | setElement x index e => do
      let (w, _) ← D.array? x.text
      let i ← index.value D σ
      let v ← e.value D σ
      return σ.setElement x.text w i.num (v.num % w.limit)
  | fillList x values => do
      let (w, _) ← D.array? x.text
      return σ.fill x.text (valueCells w values)
  | fillText x text => do
      let cs ← Gen.unquote? text.text
      return σ.fill x.text (cs.flatMap fun c => [c.toNat % 16, c.toNat / 16])
  | copyArray x y => do
      let (w, len) ← D.array? y.text
      return σ.copy x.text y.text (len * w.cells)
  | step op x => do
      let w ← D.scalar? x.text
      return σ.setScalar x.text (op.apply w.limit (σ.scalar x.text))
  | output port e => do
      let v ← e.value D σ
      return σ.output port (v.num % 16)
  | input x _ port => some (σ.setScalar x.text (inp[port]?.getD 0))
  | _ => none

/-- Whether a statement is made of no others. -/
def Stmt.isSingle : Stmt → Bool
  | skip | nop | assign .. | setElement .. | fillList .. | fillText .. | copyArray .. | step .. |
    output .. | input .. => true
  | _ => false

theorem Stmt.isSingle_of_effect {D : Decls} {inp : Vector Nat 16} {σ σ' : Store} {st : Stmt}
    (h : st.effect D inp σ = some σ') : st.isSingle = true := by
  cases st <;> first | rfl | cases h

/-- What there is to run: a statement, or the turns of a counted loop that are left. -/
inductive Task
  | stmt (st : Stmt)
  | count (x : String) (down : Bool) (limit : Nat) (body : Stmt)

/-- Whether a counter is past its limit. -/
def isPast (down : Bool) (n limit : Nat) : Bool := if down then n < limit else limit < n

/-- Running a task leads from one store to another. -/
inductive Task.Runs (D : Decls) (inp : Vector Nat 16) : Task → Store → Store → Prop
  | effect {st : Stmt} {σ σ' : Store} (h : st.effect D inp σ = some σ') :
      Runs D inp (.stmt st) σ σ'
  | seq {first rest : Stmt} {σ σ₁ σ₂ : Store} (hf : Runs D inp (.stmt first) σ σ₁)
      (hr : Runs D inp (.stmt rest) σ₁ σ₂) : Runs D inp (.stmt (.seq first rest)) σ σ₂
  | block {body : Stmt} {gate : Gate} {σ σ' : Store} (h : Runs D inp (.stmt body) σ σ') :
      Runs D inp (.stmt (.block body gate)) σ σ'
  | thenTrue {c : Cond} {gate : Gate} {yes : Stmt} {σ σ' : Store}
      (hc : c.truth D σ = some true) (h : Runs D inp (.stmt yes) σ σ') :
      Runs D inp (.stmt (.ifThen c gate yes)) σ σ'
  | thenFalse {c : Cond} {gate : Gate} {yes : Stmt} {σ : Store}
      (hc : c.truth D σ = some false) : Runs D inp (.stmt (.ifThen c gate yes)) σ σ
  | elseTrue {c : Cond} {gate : Gate} {yes no : Stmt} {σ σ' : Store}
      (hc : c.truth D σ = some true) (h : Runs D inp (.stmt yes) σ σ') :
      Runs D inp (.stmt (.ifElse c gate yes no)) σ σ'
  | elseFalse {c : Cond} {gate : Gate} {yes no : Stmt} {σ σ' : Store}
      (hc : c.truth D σ = some false) (h : Runs D inp (.stmt no) σ σ') :
      Runs D inp (.stmt (.ifElse c gate yes no)) σ σ'
  | whileFalse {c : Cond} {gate : Gate} {body : Stmt} {σ : Store}
      (hc : c.truth D σ = some false) : Runs D inp (.stmt (.whileDo c gate body)) σ σ
  | whileTrue {c : Cond} {gate : Gate} {body : Stmt} {σ σ₁ σ₂ : Store}
      (hc : c.truth D σ = some true) (hb : Runs D inp (.stmt body) σ σ₁)
      (hr : Runs D inp (.stmt (.whileDo c gate body)) σ₁ σ₂) :
      Runs D inp (.stmt (.whileDo c gate body)) σ σ₂
  | repeatTrue {body : Stmt} {c : Cond} {σ σ₁ : Store} (hb : Runs D inp (.stmt body) σ σ₁)
      (hc : c.truth D σ₁ = some true) : Runs D inp (.stmt (.repeatUntil body c)) σ σ₁
  | repeatFalse {body : Stmt} {c : Cond} {σ σ₁ σ₂ : Store}
      (hb : Runs D inp (.stmt body) σ σ₁) (hc : c.truth D σ₁ = some false)
      (hr : Runs D inp (.stmt (.repeatUntil body c)) σ₁ σ₂) :
      Runs D inp (.stmt (.repeatUntil body c)) σ σ₂
  /-- The variable is assigned before the limit is evaluated, and the limit only once. -/
  | forDo {x : Token} {down : Bool} {first last : Expr} {gate : Gate} {body : Stmt}
      {w : Width} {a b : Val} {σ σ' : Store} (hx : D.scalar? x.text = some w)
      (hf : first.value D σ = some a)
      (hl : last.value D (σ.setScalar x.text (a.num % w.limit)) = some b)
      (h : Runs D inp (.count x.text down (b.num % w.limit) body)
        (σ.setScalar x.text (a.num % w.limit)) σ') :
      Runs D inp (.stmt (.forDo x down first last gate body)) σ σ'
  | countPast {x : String} {down : Bool} {limit : Nat} {body : Stmt} {σ : Store}
      (h : isPast down (σ.scalar x) limit = true) : Runs D inp (.count x down limit body) σ σ
  | countLast {x : String} {down : Bool} {limit : Nat} {body : Stmt} {σ σ₁ : Store}
      (h : isPast down (σ.scalar x) limit = false) (hb : Runs D inp (.stmt body) σ σ₁)
      (he : σ₁.scalar x = limit) : Runs D inp (.count x down limit body) σ σ₁
  | countNext {x : String} {down : Bool} {limit : Nat} {body : Stmt} {w : Width}
      {σ σ₁ σ₂ : Store} (hx : D.scalar? x = some w)
      (h : isPast down (σ.scalar x) limit = false) (hb : Runs D inp (.stmt body) σ σ₁)
      (he : σ₁.scalar x ≠ limit)
      (hr : Runs D inp (.count x down limit body)
        (σ₁.setScalar x ((if down then StepOp.dec else .inc).apply w.limit (σ₁.scalar x))) σ₂) :
      Runs D inp (.count x down limit body) σ σ₂

/-! ### Programs -/

/-- What a declared name stands for: an array has a length. -/
def Decl.of (width : Width) : Option Nat → Decl
  | none => .scalar width
  | some len => .array width len

/-- What names stand for behind the declarations of a block. -/
def Block.declsFrom (D : Decls) : Block → Decls
  | declare x width len rest => rest.declsFrom (Function.update D x.text (some (.of width len)))
  | _ => D

/-- The statement behind the declarations of a block. -/
def Block.main : Block → Stmt
  | fault why => .fault why
  | code st => st
  | declare _ _ _ rest => rest.main
  | procedure _ _ _ rest => rest.main

/-- A program without procedures leads from a store to a store. -/
def Program.Runs (p : Program) (inp : Vector Nat 16) (σ σ' : Store) : Prop :=
  Task.Runs (p.block.declsFrom fun _ => none) inp (.stmt p.block.main) σ σ'

end NibblePascal
