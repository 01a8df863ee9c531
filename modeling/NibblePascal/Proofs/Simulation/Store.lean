import NibblePascal.Proofs.Fragments.Element
import NibblePascal.Proofs.Semantics.Reference
import NibblePascal.Proofs.Storage.Workspace

/-!
# The store of a program in memory

* `Scope.view` reads the store of a program off the memory, for the names in scope;
* `sc.Ready room`: the names in scope lie apart from one another and outside the room of the
  temporaries;
* `view_congr` says that temporaries are no part of the store, and the lemmas after it how the
  store follows a change of a scalar or of an array.
-/

namespace NibblePascal

/-! ### Memory but for some cells -/

namespace Memory

variable {P Q : Nat → Prop} {m m' m'' : Memory} {v : Var}

/-- The memories agree on every cell but those of `P`. -/
def SameBut (P : Nat → Prop) (m m' : Memory) : Prop :=
  ∀ addr, ¬ P addr → m'.read addr = m.read addr

theorem SameBut.refl (P : Nat → Prop) (m : Memory) : m.SameBut P m := fun _ _ => rfl

theorem SameBut.trans (h : m.SameBut P m') (h' : m'.SameBut P m'') : m.SameBut P m'' :=
  fun addr hP => (h' addr hP).trans (h addr hP)

theorem SameBut.mono (h : m.SameBut P m') (hPQ : ∀ addr, P addr → Q addr) : m.SameBut Q m' :=
  fun addr hQ => h addr fun hP => hQ (hPQ addr hP)

theorem SameBut.get_eq (h : m.SameBut P m') (hv : ∀ addr, v.Covers addr → ¬ P addr) :
    m'.get v = m.get v := get_congr fun addr hc => h addr (hv addr hc)

theorem SameOff.sameBut {vs : List Var} (h : m.SameOff vs m')
    (hvs : ∀ v ∈ vs, ∀ addr, v.Covers addr → P addr) : m.SameBut P m' :=
  fun addr hP => h addr fun v hv hc => hP (hvs v hv addr hc)

theorem sameBut_set (hv : ∀ addr, v.Covers addr → P addr) (x : Nat) : m.SameBut P (m.set v x) :=
  fun addr hP => read_set_of_not fun hc => hP (hv addr hc)

end Memory

/-! ### The store of a program -/

/-- What a symbol is declared as. -/
def Symbol.decl : Symbol → Decl
  | scalar v => .scalar v.width
  | array a => .array a.width a.len

namespace Scope

/-- The names in scope as declarations. -/
def decls (sc : Scope) : Decls := fun x => (sc.find? x).map Symbol.decl

/-- What the names in scope hold. -/
def view (sc : Scope) (m : Memory) (out : Vector Nat 16) : Store where
  scalar x :=
    match sc.find? x with
    | some (.scalar v) => m.get v
    | _ => 0
  cell x k :=
    match sc.find? x with
    | some (.array a) => if k < slotSize then m.read (a.base + k) else 0
    | _ => 0
  out := out

/-- The names in scope lie apart from one another and outside the room of temporaries. -/
structure Ready (sc : Scope) (room : Nat → Prop) : Prop where
  room_lt : ∀ addr, room addr → addr < scalarSpace
  scalar : ∀ {x v}, sc.find? x = some (.scalar v) → v.Outside room
  array : ∀ {x a}, sc.find? x = some (.array a) → a.Placed ∧ a.size ≤ slotSize
  apart : ∀ {x y u v}, sc.find? x = some (.scalar u) → sc.find? y = some (.scalar v) →
    x ≠ y → u.Apart v
  slots : ∀ {x y a b}, sc.find? x = some (.array a) → sc.find? y = some (.array b) →
    x ≠ y → a.base ≠ b.base

variable {sc : Scope} {room : Nat → Prop} {x : String} {v : Var} {a : ArrayVar}
  {m m' : Memory} {out : Vector Nat 16}

theorem Ready.ledger (hr : sc.Ready room) : Ledger sc (Workspace room) :=
  Workspace.ledger hr.scalar

theorem Ready.mono {room' : Nat → Prop} (hr : sc.Ready room)
    (hsub : ∀ addr, room' addr → room addr) : sc.Ready room' where
  room_lt := fun addr h => hr.room_lt addr (hsub addr h)
  scalar := fun hx => (hr.scalar hx).mono hsub
  array := hr.array
  apart := hr.apart
  slots := hr.slots

theorem decls_scalar? (h : sc.find? x = some (.scalar v)) :
    sc.decls.scalar? x = some v.width := by simp [Decls.scalar?, decls, h, Symbol.decl]

theorem decls_array? (h : sc.find? x = some (.array a)) :
    sc.decls.array? x = some (a.width, a.len) := by simp [Decls.array?, decls, h, Symbol.decl]

theorem view_scalar (h : sc.find? x = some (.scalar v)) :
    (sc.view m out).scalar x = m.get v := by simp [view, h]

theorem view_cell (h : sc.find? x = some (.array a)) {k : Nat} (hk : k < slotSize) :
    (sc.view m out).cell x k = m.read (a.base + k) := by simp [view, h, hk]

@[simp] theorem view_out : (sc.view m out).out = out := rfl

theorem joinCells_read (m : Memory) (addr count : Nat) :
    joinCells (fun k => m.read (addr + k)) count = m.number addr count := by
  induction count with
  | zero => rfl
  | succ count ih => rw [joinCells, ih, Memory.number_succ]

theorem joinCells_congr {f g : Nat → Nat} {count : Nat} (h : ∀ k < count, f k = g k) :
    joinCells f count = joinCells g count := by
  induction count with
  | zero => rfl
  | succ count ih => rw [joinCells, joinCells, ih fun k hk => h k (by omega), h count (by omega)]

theorem view_element (h : sc.find? x = some (.array a)) (index : Nat) :
    (sc.view m out).element x a.width index =
      m.number (a.base + a.offset index) a.width.cells := by
  rw [← joinCells_read]
  refine joinCells_congr fun k hk => ?_
  exact (view_cell h (a.offset_add_lt index hk)).trans (by rw [Nat.add_assoc])

/-- Temporaries are not part of the store. -/
theorem Ready.view_congr (hr : sc.Ready room) (h : m.SameBut room m') (out : Vector Nat 16) :
    sc.view m' out = sc.view m out := by
  refine Store.ext (funext fun x => ?_) (funext fun x => funext fun k => ?_) rfl
  · simp only [view]
    split
    · rename_i v hv
      exact h.get_eq (hr.scalar hv).not_room
    · rfl
  · simp only [view]
    split
    · rename_i a ha
      have hbase : scalarSpace ≤ a.base := ArrayVar.base_ge (hr.array ha).1
      split
      · exact h _ fun hroom => absurd (hr.room_lt _ hroom) (by omega)
      · rfl
    · rfl

/-! ### Changes -/

/-- A scalar is changed. -/
theorem Ready.view_set (hr : sc.Ready room) (hx : sc.find? x = some (.scalar v)) (n : Nat)
    (out : Vector Nat 16) :
    sc.view (m.set v n) out = (sc.view m out).setScalar x (n % v.width.limit) := by
  refine Store.ext (funext fun y => ?_) (funext fun y => funext fun k => ?_) rfl
  · simp only [Store.setScalar, Function.update_apply]
    split
    · rename_i hyx
      subst hyx
      rw [view_scalar hx, Memory.get_set_same (hr.scalar hx).placed]
      rfl
    · rename_i hyx
      simp only [view]
      split
      · rename_i u hu
        exact Memory.get_set_of_apart (hr.apart hu hx hyx)
      · rfl
  · simp only [view, Store.setScalar]
    split
    · rename_i a ha
      have hbase : scalarSpace ≤ a.base := ArrayVar.base_ge (hr.array ha).1
      have hcovers : ¬ v.Covers (a.base + k) := fun hc =>
        absurd ((hr.scalar hx).placed.lt_of_covers hc) (by omega)
      rw [Memory.read_set_of_not hcovers]
    · rfl

/-- Slots of different arrays have no cell in common. -/
theorem Ready.not_in_slot (hr : sc.Ready room) {y : String} {b : ArrayVar}
    (ha : sc.find? x = some (.array a)) (hb : sc.find? y = some (.array b)) (hyx : y ≠ x)
    {k : Nat} (hk : k < slotSize) : ¬ (a.base ≤ b.base + k ∧ b.base + k < a.base + slotSize) := by
  obtain ⟨i, hi, hai⟩ := (hr.array ha).1.slot
  obtain ⟨j, hj, hbj⟩ := (hr.array hb).1.slot
  have hne := hr.slots hb ha hyx
  simp only [ArrayVar.base, hai, hbj, slotSize] at *
  omega

/-- The cells of an array are changed, and some temporaries. -/
theorem Ready.view_setCells (hr : sc.Ready room) (ha : sc.find? x = some (.array a))
    (hsame : ∀ addr, ¬ room addr → ¬ (a.base ≤ addr ∧ addr < a.base + slotSize) →
      m'.read addr = m.read addr) {f : Nat → Nat}
    (hf : ∀ k < slotSize, m'.read (a.base + k) = f k) (hf' : ∀ k, slotSize ≤ k → f k = 0)
    (out : Vector Nat 16) : sc.view m' out = (sc.view m out).setCells x f := by
  have hroom (addr : Nat) (hle : scalarSpace ≤ addr) : ¬ room addr := fun h =>
    absurd (hr.room_lt addr h) (by omega)
  refine Store.ext (funext fun y => ?_) (funext fun y => funext fun k => ?_) rfl
  · simp only [view, Store.setCells]
    split
    · rename_i v hv
      have hbase : scalarSpace ≤ a.base := ArrayVar.base_ge (hr.array ha).1
      refine Memory.get_congr fun addr hc => hsame addr ((hr.scalar hv).not_room addr hc) ?_
      have hlt := (hr.scalar hv).placed.lt_of_covers hc
      omega
    · rfl
  · simp only [Store.setCells, Function.update_apply]
    split
    · rename_i hyx
      subst hyx
      by_cases hk : k < slotSize
      · rw [view_cell ha hk, hf k hk]
      · rw [hf' k (Nat.le_of_not_lt hk)]
        simp [view, ha, hk]
    · rename_i hyx
      simp only [view]
      split
      · rename_i b hb
        have hbase : scalarSpace ≤ b.base := ArrayVar.base_ge (hr.array hb).1
        split
        · rename_i hk
          exact hsame _ (hroom _ (by omega)) (hr.not_in_slot ha hb hyx hk)
        · rfl
      · rfl

theorem view_cell_of_le {k : Nat} (hk : slotSize ≤ k) : (sc.view m out).cell x k = 0 := by
  simp only [view]
  split
  · rw [if_neg (by omega)]
  · rfl

/-- An element is changed, and some temporaries. -/
theorem Ready.view_setElement (hr : sc.Ready room) (ha : sc.find? x = some (.array a))
    {index n : Nat} (hm' : m'.Nibbles)
    (hsame : ∀ addr, ¬ room addr →
      ¬ (a.base + a.offset index ≤ addr ∧ addr < a.base + a.offset index + a.width.cells) →
      m'.read addr = m.read addr)
    (hnum : m'.number (a.base + a.offset index) a.width.cells = n) (out : Vector Nat 16) :
    sc.view m' out = (sc.view m out).setElement x a.width index n := by
  have hbase : scalarSpace ≤ a.base := ArrayVar.base_ge (hr.array ha).1
  have hcells : 0 < a.width.cells := by cases a.width <;> decide
  have hfit := a.offset_add_lt index (Nat.sub_lt hcells one_pos)
  have hoff : a.width.elementCell index = a.offset index := rfl
  refine hr.view_setCells ha (fun addr hroom hslot => hsame addr hroom (by omega)) (fun k hk => ?_)
    (fun k hk => ?_) out
  · rw [hoff]
    split
    · rename_i hk'
      rw [← hnum, Memory.number_digit hm' (by omega : k - a.offset index < a.width.cells),
        show a.base + a.offset index + (k - a.offset index) = a.base + k by omega]
    · rw [view_cell ha hk]
      exact hsame _ (fun hroom => absurd (hr.room_lt _ hroom) (by omega)) (by omega)
  · rw [hoff, if_neg (by omega), view_cell_of_le hk]

/-- An array is filled from its first cell on. -/
theorem Ready.view_fill (hr : sc.Ready room) (ha : sc.find? x = some (.array a))
    {cells : List Nat} (hlen : cells.length ≤ slotSize) (hcells : ∀ n ∈ cells, n < 16)
    (out : Vector Nat 16) :
    sc.view (m.fill a.base 0 cells) out = (sc.view m out).fill x cells := by
  have hsize : a.base + slotSize ≤ memorySize := ArrayVar.slot_le (hr.array ha).1
  refine hr.view_setCells ha (fun addr _ hslot => ?_) (fun k hk => ?_) (fun k hk => ?_) out
  · rw [Memory.read_fill hsize (by omega), if_neg (by omega)]
  · rw [Memory.read_fill hsize (by omega), Nat.add_zero, Nat.add_sub_cancel_left]
    by_cases hk' : k < cells.length
    · rw [if_pos (by omega), List.getElem?_eq_getElem hk', Option.getD_some, Option.getD_some,
        Nat.mod_eq_of_lt (hcells _ (List.getElem_mem hk'))]
    · rw [if_neg (by omega), List.getElem?_eq_none (by omega), Option.getD_none, view_cell ha hk]
  · rw [List.getElem?_eq_none (by omega), Option.getD_none, view_cell_of_le hk]

/-- The first cells of an array are copied. -/
theorem Ready.view_copy (hr : sc.Ready room) {y : String} {b : ArrayVar}
    (ha : sc.find? x = some (.array a)) (hb : sc.find? y = some (.array b)) {n : Nat}
    (hn : n ≤ slotSize) (out : Vector Nat 16) :
    sc.view (m.copy b.base a.base n) out = (sc.view m out).copy x y n := by
  have hsize : a.base + slotSize ≤ memorySize := ArrayVar.slot_le (hr.array ha).1
  have horder : ∀ k < n, ¬ (a.base ≤ b.base + k ∧ b.base + k < a.base + k) := by
    intro k hk
    by_cases hyx : y = x
    · subst hyx
      obtain rfl : a = b := by simpa using ha.symm.trans hb
      omega
    · have hslot := hr.not_in_slot ha hb hyx (hk.trans_le hn)
      omega
  refine hr.view_setCells ha (fun addr _ hslot => ?_) (fun k hk => ?_) (fun k hk => ?_) out
  · rw [Memory.read_copy hsize hn horder, if_neg (by omega)]
  · rw [Memory.read_copy hsize hn horder, Nat.add_sub_cancel_left]
    by_cases hk' : k < n
    · rw [if_pos (by omega), if_pos hk', view_cell hb hk]
    · rw [if_neg (by omega), if_neg hk', view_cell ha hk]
  · rw [if_neg (by omega), view_cell_of_le hk]

end Scope

end NibblePascal
