import NibblePascal.Fault
import NibblePascal.Storage.Variable

/-!
# The allocator

Scalars are packed from the first cell of bank 0 on and never given back.  Arrays get the
slots of banks 1 to 15 in order, sixteen slots to a bank.  Temporaries are scalars that are
recycled: a released temporary waits in the pool of its width, and the last one released is
the first one taken again.

* `define` gives a scalar its cells, `defineArray` an array its slot, `temp` a temporary;
* `release` puts a temporary into its pool, `reclaim` also answers whether it was one;
* `locate` sets the position that a shortage of memory is reported at.

Every operation that may fail answers the fault or the variable together with the allocator
after it.
-/

namespace NibblePascal

/-- The cells for scalars. -/
def scalarSpace : Nat := 4096

/-- The cells of a slot. -/
def slotSize : Nat := 256

/-- The slots of a bank. -/
def slotsPerBank : Nat := 16

/-- The number of the last bank. -/
def lastBank : Nat := 15

/-- The released temporaries of each width, the last one released first. -/
structure Pools where
  nibbles : List Var := []
  bytes : List Var := []
  words : List Var := []
  deriving DecidableEq, Repr, Inhabited

namespace Pools

/-- The pool of a width. -/
def get (p : Pools) : Width → List Var
  | .nibble => p.nibbles
  | .byte => p.bytes
  | .word => p.words

/-- The pools with another pool for a width. -/
def set (p : Pools) : Width → List Var → Pools
  | .nibble, vs => { p with nibbles := vs }
  | .byte, vs => { p with bytes := vs }
  | .word, vs => { p with words := vs }

@[simp] theorem get_set_same (p : Pools) (w : Width) (vs : List Var) :
    (p.set w vs).get w = vs := by cases w <;> rfl

theorem get_set_of_ne (p : Pools) {v w : Width} (vs : List Var) (h : v ≠ w) :
    (p.set w vs).get v = p.get v := by cases v <;> cases w <;> first | rfl | exact absurd rfl h

/-- What holds in all pools holds with another pool for a width if it holds in that one. -/
theorem forall_set {p : Pools} {P : Width → Var → Prop} (h : ∀ w, ∀ v ∈ p.get w, P w v) {w : Width}
    {vs : List Var} (hvs : ∀ v ∈ vs, P w v) (u : Width) : ∀ v ∈ (p.set w vs).get u, P u v := by
  by_cases hu : u = w
  · subst hu
    rwa [get_set_same]
  · rw [get_set_of_ne _ _ hu]
    exact h u

@[simp] theorem set_set (p : Pools) (w : Width) (us vs : List Var) :
    (p.set w us).set w vs = p.set w vs := by cases w <;> rfl

@[simp] theorem set_get (p : Pools) (w : Width) : p.set w (p.get w) = p := by cases w <;> rfl

end Pools

/-- What has been given out so far. -/
structure Allocator where
  /-- The first free cell for scalars. -/
  free : Nat := 0
  /-- The next slot of the current bank. -/
  slot : Nat := 0
  bank : Nat := 1
  pools : Pools := {}
  /-- The number of temporaries asked for beyond the pools. -/
  temps : Nat := 0
  /-- The scalars in the order of their addresses. -/
  vars : Array Var := #[]
  arrays : Array ArrayVar := #[]
  here : Pos := {}
  deriving DecidableEq, Repr, Inhabited

namespace Allocator

/-- Report a shortage of memory at `pos` from now on. -/
def locate (a : Allocator) (pos : Pos) : Allocator := { a with here := pos }

/-- Give a scalar the next free cells. -/
def define (a : Allocator) (name : String) (width : Width) (block : String)
    (isTemp : Bool) : Except Fault Var × Allocator :=
  if scalarSpace < a.free + width.cells then
    (.error (.memory a.here (.scalar width name)), a)
  else
    let v : Var := ⟨name, width, a.free, block, isTemp⟩
    (.ok v, { a with free := a.free + width.cells, vars := a.vars.push v })

/-- Give a declared scalar its cells. -/
def defineVar (a : Allocator) (name : String) (width : Width) (block : String) :
    Except Fault Var × Allocator :=
  a.define name width block false

/-- Give an array the next slot. -/
def defineArray (a : Allocator) (name : String) (width : Width) (len : Nat)
    (block : String) : Except Fault ArrayVar × Allocator :=
  if lastBank < a.bank then
    (.error (.memory a.here (.array name)), a)
  else
    let v : ArrayVar := ⟨name, width, a.slot * slotSize, len, a.bank, block⟩
    let full := a.slot + 1 == slotsPerBank
    (.ok v,
      { a with
        slot := if full then 0 else a.slot + 1
        bank := if full then a.bank + 1 else a.bank
        arrays := a.arrays.push v })

/-- The name of the temporary with the given number. -/
def tempName (n : Nat) : String := "$SYS" ++ toString n

/-- Take a temporary from the pool of its width, or make a new one. -/
def temp (a : Allocator) (width : Width) : Except Fault Var × Allocator :=
  match a.pools.get width with
  | v :: rest => (.ok v, { a with pools := a.pools.set width rest })
  | [] => { a with temps := a.temps + 1 }.define (tempName a.temps) width "" true

/-- Put a temporary into the pool of its width.  A declared scalar is left alone. -/
def release (a : Allocator) (v : Var) : Allocator :=
  if v.temp then { a with pools := a.pools.set v.width (v :: a.pools.get v.width) } else a

/-- Put a variable back, and answer whether it was a temporary. -/
def reclaim (a : Allocator) (v : Var) : Bool × Allocator := (v.temp, a.release v)

/-- A declared scalar never gets into a pool. -/
theorem release_of_not_temp (a : Allocator) {v : Var} (h : v.temp = false) :
    a.release v = a := by
  simp [release, h]

end Allocator

end NibblePascal
