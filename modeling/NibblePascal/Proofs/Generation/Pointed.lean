import NibblePascal.Proofs.Assembly.Guarded
import NibblePascal.Proofs.Generation.Coded
import NibblePascal.Proofs.Generation.Edits
import NibblePascal.Proofs.Reading.Bounds
import NibblePascal.Proofs.Reading.Positions
import NibblePascal.Proofs.Storage.InBounds

/-!
# Where generation stops

Code generation makes up no positions either.  A fault is one of the tree, or it is at a position
of the tree: that of a token, or that where a shortage of memory is reported from now on.  The
latter is unset at first, but whatever asks for memory comes after a `locate`.

On its way, be it to the end or to a fault, it keeps its promises but for edits of the code: widths
are as they should be, and since all variables lie within the memory, no number that it computes
with has more than sixteen bits.

`m.Points P b b' A`: from a generator that is ready, `m` comes to one that is, with a value as `A`
says, or it stops at a position with the property `P`.  With `b` the place where a shortage is
reported has the property before, and with `b'` after.
-/

namespace NibblePascal

variable {P : Pos → Prop} {α β : Type} {b b' : Bool}

theorem Fault.IsAt.of_here {why : Fault} {pos : Pos} (h : why.IsAt (· = pos)) (hpos : P pos) :
    why.IsAt P := by
  cases why with
  | source p _ | memory p _ =>
    cases h
    exact hpos
  | missingInclude | openAsm | file | settings => exact h

/-- All that lies within the memory. -/
def Territory.memory : Territory := ⟨Var.Placed, ArrayVar.Placed⟩

theorem Territory.Guards.fits {lines : List Line} {bank bank' : Nat}
    (h : Territory.memory.Guards bank lines bank') : ∀ l ∈ lines, l.fits = true := by
  have howns : ∀ {addr}, Territory.memory.Owns addr → addr + 1 < 0x10000 := by
    rintro addr ⟨v, hv, hcovers⟩
    have : v.addr + v.cells ≤ 4096 := hv
    have := hcovers.2
    omega
  induction lines generalizing bank with
  | nil => exact nofun
  | cons l lines ih =>
    refine List.forall_mem_cons.2 ⟨?_, ih h.2⟩
    have hallows := h.1
    unfold Line.fits
    split
    · exact decide_eq_true (howns hallows.2)
    · exact decide_eq_true (howns hallows.2)
    · rfl

/-- The array lies within the memory, and its elements in its slot. -/
def ArrayVar.InSlot (a : ArrayVar) : Prop := a.Placed ∧ a.size ≤ slotSize

/-- The variable of a name lies within the memory. -/
def Symbol.Placed : Symbol → Prop
  | scalar v => v.Placed
  | array a => a.InSlot

/-- The allocator is within its bounds, and so are the temporaries in its pools. -/
structure Allocator.Stocked (a : Allocator) : Prop where
  bounds : a.InBounds
  pooled : ∀ w, ∀ v ∈ a.pools.get w, v.Placed

/-- What generation finds and leaves: variables within the memory, code that fits, positions of
procedures with the property, and with `placed` that of the memory. -/
structure Generator.Ready (P : Pos → Prop) (placed : Bool) (g : Generator) : Prop where
  here : placed = true → P g.memory.here
  memory : g.memory.Stocked
  symbols : ∀ s ∈ g.scope.symbols, s.Placed
  procedures : ∀ p ∈ g.procedures, P p.pos ∧ p.selector.Placed
  code : ∀ l ∈ g.code.lines, l.fits = true

theorem Generator.Ready.of_placed {g : Generator} (h : g.Ready P true) : g.Ready P b :=
  { h with here := fun _ => h.here rfl }

theorem Generator.Ready.unplaced {g : Generator} (h : g.Ready P b) : g.Ready P false :=
  { h with here := nofun }

theorem Generator.ready_empty : Generator.Ready P false {} where
  here := nofun
  memory := ⟨.empty, fun w v hv => by cases w <;> cases hv⟩
  symbols := nofun
  procedures := nofun
  code := nofun

namespace Allocator

variable {a : Allocator}

/-- An answer of the allocator: something with a property, or a fault where a shortage is
reported. -/
structure Serves (a : Allocator) (A : α → Prop) (r : Except Fault α × Allocator) : Prop where
  here : r.2.here = a.here
  stocked : r.2.Stocked
  value : match r.1 with
    | .ok v => A v
    | .error why => why.IsAt (· = a.here)

theorem Stocked.serves_define (h : a.Stocked) (name : String) (w : Width) (block : String)
    (isTemp : Bool) :
    a.Serves (fun v => v.Placed ∧ v.width = w) (a.define name w block isTemp) := by
  have hbounds := h.bounds.define name w block isTemp
  unfold define at hbounds ⊢
  split
  · exact ⟨rfl, h, rfl⟩
  · rename_i hspace
    rw [if_neg hspace] at hbounds
    exact ⟨rfl, ⟨hbounds, h.pooled⟩, Nat.le_of_not_lt hspace, rfl⟩

theorem Stocked.serves_temp (h : a.Stocked) (w : Width) :
    a.Serves (fun v => v.Placed ∧ v.width = w) (a.temp w) := by
  have hbounds := h.bounds.temp w
  unfold temp at hbounds ⊢
  split
  case h_1 v rest hpool =>
    have hplaced := h.pooled w
    have hwidth := h.bounds.pool w
    rw [hpool] at hplaced hwidth
    simp only [hpool] at hbounds
    exact ⟨rfl, ⟨hbounds, Pools.forall_set h.pooled fun u hu => hplaced u (.tail _ hu)⟩,
      hplaced v (.head _), hwidth v (.head _)⟩
  case h_2 =>
    have h' : ({ a with temps := a.temps + 1 } : Allocator).Stocked := ⟨{ h.bounds with }, h.pooled⟩
    exact { h'.serves_define _ w "" true with }

theorem Stocked.serves_defineArray (h : a.Stocked) {w : Width} {len : Nat}
    (hlen : len * w.cells ≤ slotSize) (name block : String) :
    a.Serves ArrayVar.InSlot (a.defineArray name w len block) := by
  have hbounds := h.bounds.defineArray name block hlen
  unfold defineArray at hbounds ⊢
  split
  · exact ⟨rfl, h, rfl⟩
  · rename_i hbank
    rw [if_neg hbank] at hbounds
    exact ⟨rfl, ⟨hbounds, h.pooled⟩, hbounds.array _ (by simp)⟩

theorem Stocked.release (h : a.Stocked) {v : Var} (hv : v.Placed) : (a.release v).Stocked := by
  refine ⟨h.bounds.release v, ?_⟩
  unfold Allocator.release
  split
  · exact Pools.forall_set h.pooled (List.forall_mem_cons.2 ⟨hv, h.pooled v.width⟩)
  · exact h.pooled

theorem here_release (v : Var) : (a.release v).here = a.here := by
  unfold release
  split <;> rfl

end Allocator

namespace Gen

/-- From a ready generator to a ready one with a value as `A` says, to a fault at a position with
the property, or to an edit that cannot be made. -/
def Points (P : Pos → Prop) (b b' : Bool) (m : Gen α) (A : α → Prop := fun _ => True) : Prop :=
  ∀ g, g.Ready P b → match m g with
    | .ok a g' => g'.Ready P b' ∧ A a
    | .error (.fault why) g' => why.IsAt P ∧ g'.Ready P false
    | .error (.defect why) _ => why.isEdit = true

variable {m : Gen α} {f : α → Gen β} {A : α → Prop} {B : β → Prop}

/-- Two steps. -/
theorem Points.bind {b₁ : Bool} (hm : m.Points P b b₁ A) (hf : ∀ a, A a → (f a).Points P b₁ b' B) :
    (m >>= f).Points P b b' B := by
  intro g hg
  have hg₁ := hm g hg
  simp only [Bind.bind, EStateM.bind]
  cases hmg : m g with
  | ok a g₁ =>
    rw [hmg] at hg₁
    exact hf a hg₁.2 g₁ hg₁.1
  | error why g₁ =>
    rw [hmg] at hg₁
    cases why <;> exact hg₁

/-- A computation may look at the generator first. -/
theorem Points.get {f : Generator → Gen β} (hf : ∀ g, g.Ready P b → (f g).Points P b b' B) :
    (MonadState.get >>= f).Points P b b' B := fun g hg => hf g hg g hg

/-- The place where a shortage is reported need not be used. -/
theorem Points.unplaced (hm : m.Points P b true A) : m.Points P b b' A := by
  intro g hg
  have hg₁ := hm g hg
  split at hg₁
  · exact ⟨hg₁.1.of_placed, hg₁.2⟩
  · exact hg₁
  · exact hg₁

theorem points_pure {a : α} (h : A a) : (pure a : Gen α).Points P b b A := fun _ hg => ⟨hg, h⟩

theorem points_fail {why : Fault} (h : why.IsAt P) : (fail why : Gen α).Points P b b' A :=
  fun _ hg => ⟨h, hg.unplaced⟩

theorem points_complain {pos : Pos} {why : Complaint} (h : P pos) :
    (complain pos why : Gen α).Points P b b' A := fun _ hg => ⟨h, hg.unplaced⟩

/-- Nothing comes after a complaint. -/
theorem points_refuse {pos : Pos} {why : Complaint} (h : P pos) :
    (complain pos why >>= f).Points P b b' B := fun _ hg => ⟨h, hg.unplaced⟩

theorem points_emitFitting {lines : List Line} (h : ∀ l ∈ lines, l.fits = true) :
    (emit lines).Points P b b := by
  intro g hg
  refine ⟨{ hg with code := ?_ }, trivial⟩
  rw [Sequence.lines_append]
  exact List.forall_mem_append.2 ⟨hg.code, h⟩

theorem points_emit {lines : List Line} (h : Territory.memory.Keeps lines) :
    (emit lines).Points P b b := points_emitFitting h.fits

theorem points_emitEntry {line : Line} (h : line.fits = true) : (emitEntry line).Points P b b := by
  intro g hg
  refine ⟨{ hg with code := ?_ }, trivial⟩
  rw [Sequence.lines_push]
  exact List.forall_mem_append.2 ⟨hg.code, by simpa using h⟩

theorem points_newLabels (count : Nat) : (newLabels count).Points P b b :=
  fun _ hg => ⟨{ hg with }, trivial⟩

theorem points_newLabel : newLabel.Points P b b := fun _ hg => ⟨{ hg with }, trivial⟩

theorem points_place (label : String) : (place label).Points P b b :=
  points_emitFitting (by simp [Line.fits])

theorem points_locate {pos : Pos} (h : P pos) : (locate pos).Points P b true :=
  fun _ hg => ⟨{ hg with
    here := fun _ => h
    memory := ⟨hg.memory.bounds.locate pos, hg.memory.pooled⟩ }, trivial⟩

theorem points_updateCode {f : Sequence → Except Defect Sequence}
    (hf : ∀ {s t}, f s = .ok t → (∀ l ∈ s.lines, l.fits = true) → ∀ l ∈ t.lines, l.fits = true)
    (hdefect : ∀ {s why}, f s = .error why → why.isEdit = true) : (updateCode f).Points P b b := by
  refine .get fun g hg => ?_
  split
  · rename_i hcode
    exact fun _ _ => ⟨{ hg with code := hf hcode hg.code }, trivial⟩
  · rename_i hcode
    exact fun _ _ => hdefect hcode

theorem points_recycle {v : Var} (hv : v.Placed) : (recycle v).Points P b b :=
  fun _ hg => ⟨{ hg with
    here := fun hb => (Allocator.here_release v).symm ▸ hg.here hb
    memory := hg.memory.release hv }, trivial⟩

theorem points_free {v : Var} (hv : v.Placed) : (free v).Points P b b := by
  unfold free
  split
  · exact (points_recycle hv).bind fun _ _ => points_emitFitting (by simp [Line.fits])
  · exact points_pure trivial

/-- What asks for memory stops at the place where a shortage is reported. -/
theorem points_allocate {f : Allocator → Except Fault α × Allocator}
    (hf : ∀ {a : Allocator}, a.Stocked → a.Serves A (f a)) : (allocate f).Points P true true A := by
  intro g hg
  obtain ⟨hhere, hstocked, hvalue⟩ := hf hg.memory
  have hready : Generator.Ready P true { g with memory := (f g.memory).2 } :=
    { hg with here := fun _ => hhere ▸ hg.here rfl, memory := hstocked }
  simp only [allocate, Bind.bind, EStateM.bind, get_run, set_run]
  cases hresult : (f g.memory).1 with
  | ok value =>
    rw [hresult] at hvalue
    exact ⟨hready, hvalue⟩
  | error why =>
    rw [hresult] at hvalue
    dsimp only
    rw [if_pos hstocked.bounds.sum_lt]
    exact ⟨hvalue.of_here (hg.here rfl), hready.unplaced⟩

theorem points_temp (w : Width) :
    (temp w).Points P true true fun v => v.Placed ∧ v.width = w :=
  points_allocate fun h => h.serves_temp w

theorem points_pass {gate : Gate} (h : gate.IsAt P) : (pass gate).Points P b b := by
  cases gate with
  | passed => exact points_pure trivial
  | blocked why => exact points_fail h

theorem points_symbol {x : Token} (hx : P x.pos) : (symbol x).Points P b b Symbol.Placed := by
  refine .get fun g hg => ?_
  split
  · rename_i hfind
    exact points_pure (hg.symbols _ (Scope.mem_of_find? hfind).1)
  · exact points_complain hx

theorem points_scalar (construct : String) {x : Token} (hx : P x.pos) :
    (scalar construct x).Points P b b Var.Placed := by
  refine (points_symbol hx).bind fun symbol hs => ?_
  cases symbol with
  | scalar v => exact points_pure hs
  | array a => exact points_complain hx

theorem points_array {x : Token} (hx : P x.pos) : (array x).Points P b b ArrayVar.InSlot := by
  refine (points_symbol hx).bind fun symbol hs => ?_
  cases symbol with
  | scalar v => exact points_complain hx
  | array a => exact points_pure hs

/-! ### Operands -/

section Operands

open Territory

variable {u v x y z : Var} {arr : ArrayVar}

theorem points_changeWidth (hu : u.Placed) (hv : v.Placed) (hw : u.width ≠ v.width) :
    (changeWidth u v).Points P b b := by
  rw [changeWidth, if_neg hw]
  exact points_emit (plain_resize hu hv).keeps

theorem points_store (hu : u.Placed) (hv : v.Placed) : (store u v).Points P b b := by
  unfold store
  split
  · rename_i hw
    exact points_emit (plain_assign none hu hv (congrArg Width.cells hw).le).keeps
  · exact points_changeWidth hu hv ‹_›

theorem points_convert (hv : v.Placed) (w : Width) :
    (convert v w).Points P true true fun u => u.Placed ∧ u.width = w := by
  unfold convert
  split
  · rename_i hw
    exact points_pure ⟨hv, hw⟩
  · rename_i hw
    exact (points_temp w).bind fun res hres =>
      (points_changeWidth hv hres.1 fun heq => hw (heq.trans hres.2)).bind fun _ _ =>
        (points_free hv).bind fun _ _ => points_pure hres

theorem points_sameWidth (hu : u.Placed) (hv : v.Placed) : (sameWidth u v).Points P true true
    fun p => p.1.Placed ∧ p.2.Placed ∧ p.1.width = p.2.width := by
  unfold sameWidth
  split
  · rename_i hw
    exact points_pure ⟨hu, hv, hw⟩
  · split
    · exact (points_convert hu v.width).bind fun _ h => points_pure ⟨h.1, hv, h.2⟩
    · exact (points_convert hv u.width).bind fun _ h => points_pure ⟨hu, h.1, h.2.symm⟩

/-- A fragment of code with two temporaries. -/
theorem points_twoTemps {text : String} {w : Width} {count : Nat}
    {code : Var → Var → Nat → List Line}
    (h : ∀ u v n, u.Placed ∧ u.width = w → v.Placed ∧ v.width = w →
      Territory.memory.Plain (code u v n)) :
    Points P true true (do
      emit [Code.comment text]
      let u ← temp w
      let v ← temp w
      let n ← newLabels count
      emit (code u v n)
      recycle u
      recycle v) :=
  (points_emitFitting (by simp [Code.comment, Line.fits])).bind fun _ _ =>
    (points_temp w).bind fun u hu => (points_temp w).bind fun v hv =>
      (points_newLabels _).bind fun n _ => (points_emit (h u v n hu hv).keeps).bind fun _ _ =>
        (points_recycle hu.1).bind fun _ _ => points_recycle hv.1

theorem points_operate (hx : x.Placed) (hy : y.Placed) (hz : z.Placed) (hxy : x.width = y.width)
    (hxz : x.width = z.width) (op : BinaryOp) : (operate op x y z).Points P true true := by
  have hdivide (remainder : Bool) : (divide x y z remainder).Points P true true :=
    points_twoTemps fun r w n hr hw => plain_quotient remainder n hx hy hz hr.1 hw.1
      (congrArg Width.cells hr.2.symm) (congrArg Width.cells (hxy.symm.trans hw.2.symm))
      (congrArg Width.cells (hw.2.trans hr.2.symm)) (congrArg Width.cells (hr.2.trans hxz))
  cases op with
  | mul =>
    exact points_twoTemps fun u w n hu hw => plain_product n hx hy hz hu.1 hw.1
      (congrArg Width.cells hu.2.symm) (congrArg Width.cells (hxy.symm.trans hw.2.symm))
      (congrArg Width.cells (hxz.symm.trans hu.2.symm))
  | div => exact hdivide false
  | mod => exact hdivide true
  | add | sub | and | or | xor =>
    exact points_emit (plain_combine _ hx hy hz (congrArg Width.cells hxy).le
      (congrArg Width.cells hxz).le).keeps

theorem points_binary (op : BinaryOp) (hu : u.Placed) (hv : v.Placed) :
    (binary op u v).Points P true true Var.Placed :=
  (points_sameWidth hu hv).bind fun _ h => (points_temp _).bind fun _ hres =>
    (points_operate h.1 h.2.1 hres.1 h.2.2 hres.2.symm op).bind fun _ _ =>
      (points_free h.1).bind fun _ _ => (points_free h.2.1).bind fun _ _ => points_pure hres.1

theorem points_constant (value : Nat) (w : Width) :
    (constant value w).Points P true true Var.Placed :=
  (points_temp w).bind fun _ hres => (points_emit (plain_constant value hres.1).keeps).bind
    fun _ _ => points_pure hres.1

theorem points_negate (hv : v.Placed) : (negate v).Points P true true Var.Placed :=
  (points_temp _).bind fun _ hres => (points_emit (plain_clearFrom 0 hres.1).keeps).bind fun _ _ =>
    (points_emit (plain_combine .sub hres.1 hv hres.1 (congrArg Width.cells hres.2).le
      le_rfl).keeps).bind fun _ _ => (points_free hv).bind fun _ _ => points_pure hres.1

theorem points_half (hv : v.Placed) (upper : Bool) :
    (half v upper).Points P true true Var.Placed := by
  unfold half
  cases hw : v.width with
  | nibble => exact points_pure hv
  | byte | word =>
    refine (points_temp _).bind fun res hres =>
      (points_emit (plain_extract hv hres.1 ?_).keeps).bind fun _ _ => points_pure hres.1
    rw [Var.cells, Var.cells, hw, hres.2]
    cases upper <;> decide

theorem points_readElement (ha : arr.Placed) (hx : x.Placed) (hv : v.Placed)
    (hw : v.width = arr.width) : (readElement arr x v).Points P true true :=
  (points_temp _).bind fun _ ho =>
    (points_emit (keeps_readElement ha ha hx hv hw.symm ho.1 ho.2)).bind fun _ _ =>
      points_recycle ho.1

theorem points_writeElement (ha : arr.Placed) (hx : x.Placed) (hv : v.Placed)
    (hw : v.width = arr.width) : (writeElement arr x v).Points P true true := by
  rw [writeElement, if_neg (not_not_intro hw.symm)]
  exact (points_temp _).bind fun _ ho =>
    (points_emit (keeps_writeElement ha ha hx hv hw.symm ho.1 ho.2)).bind fun _ _ =>
      points_recycle ho.1

end Operands

end Gen

open Gen in
/-- An expression places the memory, since every factor begins with a token. -/
theorem Expr.points {e : Expr} (h : e.IsAt P) : e.generate.Points P b true Var.Placed := by
  induction e generalizing b with
  | fault why => exact points_fail h
  | scalar x => exact (points_locate h).bind fun _ _ => points_scalar _ h
  | literal pos value => exact (points_locate h).bind fun _ _ => points_constant _ _
  | negLiteral pos value => exact (points_locate h).bind fun _ _ => points_constant _ _
  | element x index close ih =>
    obtain ⟨hx, hindex, hclose⟩ := h
    exact (points_locate hx).bind fun _ _ => (points_array hx).bind fun _ ha =>
      (ih hindex).bind fun _ hi => (points_pass hclose).bind fun _ _ =>
        (points_temp _).bind fun _ hres =>
          (points_readElement ha.1 hi hres.1 hres.2).bind fun _ _ =>
            (points_free hi).bind fun _ _ => points_pure hres.1
  | half pos upper x close =>
    obtain ⟨hpos, hx, hclose⟩ := h
    exact (points_locate hpos).bind fun _ _ => (points_scalar _ hx).bind fun _ hv =>
      (points_pass hclose).bind fun _ _ => points_half hv upper
  | paren e close ih =>
    exact (ih h.1).bind fun _ hv => (points_pass h.2).bind fun _ _ => points_pure hv
  | negate e ih =>
    exact (ih h).bind fun _ hv => (points_convert hv .word).bind fun _ hwide =>
      points_negate hwide.1
  | binary op lhs rhs ihl ihr =>
    exact (ihl h.1).bind fun _ hu => (ihr h.2).bind fun _ hv => points_binary op hu hv

/-! ### Conditions -/

namespace Gen

theorem points_addExit (br : Branch) (outcome : Bool) (kind : JumpKind) :
    (addExit br outcome kind).Points P b b :=
  (points_emitEntry rfl).bind fun _ _ => points_pure trivial

theorem points_emitTest (br : Branch) {test : List TestLine}
    (h : Territory.memory.Plain (Code.closeTest "" "" test)) : (emitTest br test).Points P b b := by
  induction test generalizing br with
  | nil => exact points_pure trivial
  | cons l test ih =>
    obtain ⟨hl, htest⟩ := Territory.plain_cons.1 h
    cases l with
    | line l =>
      exact (points_emit (Territory.Plain.keeps (by simpa using hl))).bind fun _ _ => ih br htest
    | exit outcome kind => exact (points_addExit br outcome kind).bind fun br' _ => ih br' htest

theorem points_resolve (br : Branch) (outcome : Bool) (label : String) :
    (resolve br outcome label).Points P b b := by
  have hpatch (ids : List EntryId) : (updateCode (·.patchAll ids label)).Points P b b :=
    points_updateCode (fun h hs => Sequence.forall_patchAll (fun _ _ => rfl) h hs)
      Sequence.isEdit_of_patchAll
  unfold resolve
  split
  · exact (hpatch _).bind fun _ _ => points_pure trivial
  · exact (hpatch _).bind fun _ _ => points_pure trivial

theorem points_resolveBoth (br : Branch) (yes no : String) :
    (resolveBoth br yes no).Points P b b :=
  (points_resolve br true yes).bind fun br' _ => (points_resolve br' false no).bind fun _ _ =>
    points_pure trivial

/-- Operands of different widths are reported where a shortage would be. -/
theorem points_relation {u v : Var} (hu : u.Placed) (hv : v.Placed) (rel : Relation) :
    (relation u v rel).Points P true true := by
  unfold relation
  by_cases hw : u.width = v.width
  · rw [if_neg (not_not_intro hw)]
    exact (points_newLabels _).bind fun n _ => points_emitTest _
      (Territory.plain_relationTest rel n _ _ hu hv (congrArg Width.cells hw).le)
  · rw [if_pos hw]
    exact .get fun g hg => points_refuse (hg.here rfl)

theorem points_merge (br : Branch) (yes no : String) : (merge br yes no).Points P b b :=
  (points_resolveBoth br yes no).bind fun _ _ => (points_place yes).bind fun _ _ =>
    (points_addExit _ _ _).bind fun _ _ => (points_place no).bind fun _ _ => points_addExit _ _ _

theorem points_alternative (chain : Alternatives) {code : Gen Branch} (h : code.Points P b b') :
    (alternative chain code).Points P b b' :=
  points_newLabel.bind fun _ _ => (points_place _).bind fun _ _ => h.bind fun _ _ =>
    (points_resolveBoth _ _ _).bind fun _ _ => points_pure trivial

theorem points_lastAlternative (chain : Option Alternatives) {code : Gen Branch}
    (h : code.Points P b b') : (lastAlternative chain code).Points P b b' := by
  cases chain with
  | none => exact h
  | some chain => exact (points_alternative chain h).bind fun br _ => points_merge br _ _

theorem points_conjunction {lhs rhs : Gen Branch} (hl : lhs.Points P b true)
    (hr : rhs.Points P true true) : (conjunction lhs rhs).Points P b true :=
  hl.bind fun _ _ => points_newLabel.bind fun _ _ => points_newLabel.bind fun _ _ =>
    points_newLabel.bind fun _ _ => (points_place _).bind fun _ _ => hr.bind fun _ _ =>
      (points_resolveBoth _ _ _).bind fun _ _ => points_merge _ _ _

/-- A test of one scalar. -/
theorem points_scalarTest {e : Expr} {test : Var → List TestLine} (h : e.IsAt P)
    (htest : ∀ v : Var, v.Placed → Territory.memory.Plain (Code.closeTest "" "" (test v))) :
    Points P b true (do
      let v ← e.generate
      let branch ← emitTest {} (test v)
      free v
      return branch) :=
  (Expr.points h).bind fun v hv => (points_emitTest _ (htest v hv)).bind fun _ _ =>
    (points_free hv).bind fun _ _ => points_pure trivial

end Gen

open Gen in
/-- A condition begins with an expression. -/
theorem Cond.points_generateIn {c : Cond} (h : c.IsAt P) (chain : Option Alternatives) :
    (c.generateIn chain).Points P b true := by
  induction c generalizing b chain with
  | fault why => exact points_lastAlternative chain (points_fail h)
  | compare lhs rel rhs =>
    refine points_lastAlternative chain ?_
    exact (Expr.points h.1).bind fun _ hu => (Expr.points h.2).bind fun _ hv =>
      (points_sameWidth hu hv).bind fun _ h => (points_relation h.1 h.2.1 rel).bind fun _ _ =>
        (points_free h.1).bind fun _ _ => (points_free h.2.1).bind fun _ _ =>
          points_pure trivial
  | nonzero e =>
    exact points_lastAlternative chain
      (points_scalarTest h fun _ hv => Territory.plain_nonzeroTest _ _ hv)
  | odd e =>
    exact points_lastAlternative chain
      (points_scalarTest h fun _ hv => Territory.plain_oddTest _ _ hv)
  | group c close ih =>
    refine points_lastAlternative chain ?_
    exact (ih h.1 none).bind fun _ _ => (points_pass h.2).bind fun _ _ => points_pure trivial
  | and lhs rhs ihl ihr =>
    exact points_lastAlternative chain (points_conjunction (ihl h.1 none) (ihr h.2 none))
  | or lhs rhs ihl ihr =>
    cases chain with
    | none =>
      exact (ihl h.1 none).bind fun _ _ => points_newLabel.bind fun _ _ =>
        points_newLabel.bind fun _ _ => ihr h.2 _
    | some chain =>
      exact (points_alternative chain (ihl h.1 none)).bind fun _ _ => ihr h.2 _

theorem Cond.points {c : Cond} (h : c.IsAt P) : c.generate.Points P b true :=
  c.points_generateIn h none

/-! ### Statements -/

namespace Gen

/-- The size of an array that fits into its slot can be computed. -/
theorem checkedSize_eq {arr : ArrayVar} (h : arr.InSlot) : arr.checkedSize = .ok arr.size :=
  if_pos (lt_of_le_of_lt h.2 (by decide))

theorem points_fill {arr : ArrayVar} (ha : arr.InSlot) (cells : List Nat) {pos : Pos}
    (why : Complaint) (h : P pos) : (fill arr cells pos why).Points P b b := by
  rw [fill, checkedSize_eq ha]
  dsimp only
  split
  · exact points_complain h
  · exact points_emit (Territory.keeps_fillArray ha.1 ha.1 cells)

theorem points_fillText {x text : Token} (hx : P x.pos) (htext : P text.pos) :
    (fillText x text).Points P b b := by
  refine (points_array hx).bind fun arr ha => ?_
  split
  · exact points_complain htext
  · split
    · exact points_complain htext
    · exact points_fill ha _ _ htext

theorem points_copyArray {src dst : ArrayVar} (hs : src.InSlot) (hd : dst.InSlot) :
    (copyArray src dst).Points P b b := by
  refine (points_emitFitting (by simp [Code.comment, Line.fits])).bind fun _ _ => ?_
  rw [checkedSize_eq hs]
  exact points_emit (Territory.keeps_copyArray hs.1 hd.1 hs.1 hd.1)

theorem points_assignArray {x y : Token} (hx : P x.pos) (hy : P y.pos) :
    (assignArray x y).Points P b b := by
  refine (points_array hx).bind fun dst hd => (points_array hy).bind fun src hs => ?_
  have hshort : Points P b b (do
      if dst.len < src.len then complain y.pos (.tooShortForArray dst.name src.name)
      copyArray src dst) := by
    split
    · exact points_refuse hy
    · exact points_copyArray hs hd
  dsimp only
  by_cases hwidth : src.width = dst.width
  · rw [if_neg (not_not_intro hwidth)]
    exact hshort
  · rw [if_pos hwidth]
    exact points_refuse hy

theorem points_putProcedure {p : Procedure} (h : P p.pos ∧ p.selector.Placed) :
    (putProcedure p).Points P b b := by
  refine fun g hg => ⟨{ hg with procedures := fun q hq => ?_ }, trivial⟩
  dsimp only at hq
  split at hq
  · obtain ⟨r, hr, rfl⟩ := List.mem_map.1 hq
    split
    · exact h
    · exact hg.procedures r hr
  · obtain hq | hq := List.mem_append.1 hq
    · exact hg.procedures q hq
    · obtain rfl := List.mem_singleton.1 hq
      exact h

/-- A procedure that is known has a position with the property. -/
theorem Points.procedure? {name : String} {f : Option Procedure → Gen β}
    (hnone : (f none).Points P b b')
    (hsome : ∀ p, P p.pos ∧ p.selector.Placed → (f (some p)).Points P b b') :
    (Gen.procedure? name >>= f).Points P b b' := by
  intro g hg
  cases hfind : g.procedures.find? (·.name == name) with
  | none =>
    simp only [Gen.procedure?, Bind.bind, EStateM.bind, get_run, pure, EStateM.pure, hfind]
    exact hnone g hg
  | some p =>
    simp only [Gen.procedure?, Bind.bind, EStateM.bind, get_run, pure, EStateM.pure, hfind]
    exact hsome p (hg.procedures p (List.mem_of_find?_eq_some hfind)) g hg

theorem points_call {p : Procedure} (h : P p.pos ∧ p.selector.Placed) : (call p).Points P b b :=
  (points_emitEntry rfl).bind fun _ _ => points_newLabel.bind fun _ _ =>
    (points_place _).bind fun _ _ => points_putProcedure h

theorem points_callNamed {p : Token} (h : P p.pos) : (callNamed p).Points P b b := by
  refine .procedure? (points_complain h) fun proc hproc => .get fun g _ => ?_
  split
  · exact points_call hproc
  · exact points_complain h

theorem points_inlineLine {line : Token} (h : P line.pos) : (inlineLine line).Points P b b := by
  refine .get fun g _ => ?_
  dsimp only
  split
  · rename_i l hl
    have hinst : l.inst? = none := Scope.inst?_inlineLine (show g.scope.inlineLine line = _ from hl)
    refine points_emitFitting (List.forall_mem_singleton.2 ?_)
    cases l <;> first | rfl | cases hinst
  · exact points_complain h

theorem points_inlineLines {lines : List Token} (h : ∀ t ∈ lines, P t.pos) :
    (lines.forM inlineLine).Points P b b := by
  induction lines with
  | nil => exact points_pure trivial
  | cons t lines ih =>
    exact (points_inlineLine (h t (.head _))).bind fun _ _ => ih fun t' ht' => h t' (.tail _ ht')

theorem points_openChoice {c : Cond} {gate : Gate} (hc : c.IsAt P) (hgate : gate.IsAt P) :
    (openChoice c gate).Points P b true :=
  points_newLabel.bind fun _ _ => points_newLabel.bind fun _ _ => points_newLabel.bind fun _ _ =>
    (Cond.points hc).bind fun _ _ => (points_resolve _ _ _).bind fun _ _ =>
      (points_pass hgate).bind fun _ _ => (points_place _).bind fun _ _ => points_pure trivial

theorem points_jump (kind : JumpKind) (target : String) :
    (emit [Code.jump kind target]).Points P b b :=
  points_emitFitting (by simp [Code.jump, Line.fits])

theorem points_closeChoice (k : Choice) : (closeChoice k).Points P b b :=
  (points_resolve _ _ _).bind fun _ _ => points_place _

theorem points_otherwise (k : Choice) : (otherwise k).Points P b b :=
  (points_resolve _ _ _).bind fun _ _ => (points_jump _ _).bind fun _ _ => points_place _

theorem points_openWhile {c : Cond} {gate : Gate} (hc : c.IsAt P) (hgate : gate.IsAt P) :
    (openWhile c gate).Points P b true :=
  points_newLabel.bind fun _ _ => points_newLabel.bind fun _ _ => points_newLabel.bind fun _ _ =>
    (points_place _).bind fun _ _ => (Cond.points hc).bind fun _ _ =>
      (points_resolveBoth _ _ _).bind fun _ _ => (points_pass hgate).bind fun _ _ =>
        (points_place _).bind fun _ _ => points_pure trivial

theorem points_closeWhile (k : Loop) : (closeWhile k).Points P b b :=
  (points_jump _ _).bind fun _ _ => points_place _

theorem points_openRepeat : openRepeat.Points P b b :=
  points_newLabel.bind fun _ _ => points_newLabel.bind fun _ _ => (points_place _).bind fun _ _ =>
    points_pure trivial

theorem points_closeRepeat (k : Loop) {c : Cond} (hc : c.IsAt P) :
    (closeRepeat k c).Points P b true :=
  (Cond.points hc).bind fun _ _ => (points_resolveBoth _ _ _).bind fun _ _ => points_place _

/-- The limit gets its temporary after the first value was computed. -/
theorem points_openFor {x : Token} (down : Bool) {first last : Expr} {gate : Gate} (hx : P x.pos)
    (hfirst : first.IsAt P) (hlast : last.IsAt P) (hgate : gate.IsAt P) :
    (openFor x down first last gate).Points P b true fun k => k.var.Placed ∧ k.limit.Placed :=
  (points_scalar _ hx).bind fun _ hv => (Expr.points hfirst).bind fun _ hstart =>
    (points_store hstart hv).bind fun _ _ => (points_free hstart).bind fun _ _ =>
      (Expr.points hlast).bind fun _ hbound => (points_temp _).bind fun _ hlimit =>
        (points_store hbound hlimit.1).bind fun _ _ => (points_free hbound).bind fun _ _ =>
          (points_pass hgate).bind fun _ _ => points_newLabel.bind fun _ _ =>
            points_newLabel.bind fun _ _ => points_newLabel.bind fun _ _ =>
              points_newLabel.bind fun _ _ => (points_place _).bind fun _ _ =>
                (points_relation hv hlimit.1 _).bind fun _ _ =>
                  (points_resolveBoth _ _ _).bind fun _ _ => (points_place _).bind fun _ _ =>
                    points_pure ⟨hv, hlimit.1⟩

theorem points_closeFor {k : Counter} (hv : k.var.Placed) (hlimit : k.limit.Placed) (down : Bool) :
    (closeFor k down).Points P true true := by
  have hstep : Territory.memory.Keeps
      (if down then Code.decrement k.var else Code.increment k.var) := by
    split
    exacts [(Territory.plain_step .sub hv).keeps, (Territory.plain_step .add hv).keeps]
  exact (points_relation hv hlimit _).bind fun _ _ => (points_resolveBoth _ _ _).bind fun _ _ =>
    (points_place _).bind fun _ _ => (points_emit hstep).bind fun _ _ =>
      (points_jump _ _).bind fun _ _ => (points_place _).bind fun _ _ => points_free hlimit

theorem points_stepOp (op : StepOp) {v : Var} (hv : v.Placed) :
    (emit (op.code v)).Points P b b := by
  cases op with
  | shr => exact points_emit (Territory.plain_shiftRight hv).keeps
  | shl => exact points_emit (Territory.plain_shiftLeft hv).keeps
  | inc => exact points_emit (Territory.plain_step .add hv).keeps
  | dec => exact points_emit (Territory.plain_step .sub hv).keeps

end Gen

open Gen in
/-- A statement keeps the memory placed if it is. -/
theorem Stmt.points {s : Stmt} (h : s.IsAt P) : s.generate.Points P b b := by
  induction s generalizing b with
  | fault why => exact points_fail h
  | skip => exact points_pure trivial
  | nop => exact points_emitFitting (by simp [Line.fits])
  | seq first rest ihf ihr => exact (ihf h.1).bind fun _ _ => ihr h.2
  | block body close ih => exact (ih h.1).bind fun _ _ => points_pass h.2
  | assign x value =>
    exact (points_scalar _ h.1).bind fun _ hx => (Expr.points h.2).unplaced.bind fun _ hv =>
      (points_store hv hx).bind fun _ _ => points_free hv
  | setElement x index value =>
    obtain ⟨hx, hindex, hvalue⟩ := h
    refine (points_array hx).bind fun arr ha => .unplaced ?_
    exact (Expr.points hindex).bind fun _ hi => (Expr.points hvalue).bind fun _ hv =>
      (points_convert hv _).bind fun _ hv' =>
        (points_writeElement ha.1 hi hv'.1 hv'.2).bind fun _ _ =>
          (points_free hi).bind fun _ _ => points_free hv'.1
  | fillList x values => exact (points_array h).bind fun _ ha => points_fill ha _ _ h
  | fillText x text => exact points_fillText h.1 h.2
  | copyArray x y => exact points_assignArray h.1 h.2
  | call p => exact points_callNamed h
  | asm lines close => exact (points_inlineLines h.1).bind fun _ _ => points_pass h.2
  | ifThen c gate yes ih =>
    obtain ⟨hc, hgate, hyes⟩ := h
    exact (points_openChoice hc hgate).unplaced.bind fun k _ => (ih hyes).bind fun _ _ =>
      points_closeChoice k
  | ifElse c gate yes no ihy ihn =>
    obtain ⟨hc, hgate, hyes, hno⟩ := h
    exact (points_openChoice hc hgate).unplaced.bind fun k _ => (ihy hyes).bind fun _ _ =>
      (points_otherwise k).bind fun _ _ => (ihn hno).bind fun _ _ => points_place _
  | whileDo c gate body ih =>
    obtain ⟨hc, hgate, hbody⟩ := h
    exact (points_openWhile hc hgate).unplaced.bind fun k _ => (ih hbody).bind fun _ _ =>
      points_closeWhile k
  | repeatUntil body c ih =>
    exact points_openRepeat.bind fun k _ => (ih h.1).bind fun _ _ =>
      (points_closeRepeat k h.2).unplaced
  | forDo x down first last gate body ih =>
    obtain ⟨hx, hfirst, hlast, hgate, hbody⟩ := h
    -- The body keeps the memory placed, for the test that follows it.
    exact (points_openFor down hx hfirst hlast hgate).bind fun k hk => (ih hbody).bind fun _ _ =>
      (points_closeFor hk.1 hk.2 down).unplaced
  | step op x => exact (points_scalar _ h).bind fun _ hv => points_stepOp op hv
  | output port value =>
    exact (Expr.points h).unplaced.bind fun _ hv =>
      (points_emit (Territory.plain_output port hv).keeps).bind fun _ _ => points_free hv
  | input x gate port =>
    exact (points_scalar _ h.1).bind fun _ hv => (points_pass h.2).bind fun _ _ =>
      points_emit (Territory.plain_input port hv).keeps

/-! ### Blocks -/

namespace Gen

theorem points_declare {x : Token} {symbol : Symbol} (hx : P x.pos) (hs : symbol.Placed) :
    (declare x symbol).Points P b b := by
  refine .get fun g hg => ?_
  split
  · rename_i hscope
    refine fun _ _ => ⟨{ hg with symbols := ?_ }, trivial⟩
    rw [Scope.symbols_declare hscope]
    exact List.forall_mem_cons.2 ⟨hs, hg.symbols⟩
  · exact points_complain hx

theorem points_declareVariable (block : String) {x : Token} {w : Width} {len : Option Nat}
    (hx : P x.pos) (hlen : ∀ n, len = some n → n * w.cells ≤ slotSize) :
    (declareVariable block x w len).Points P b true := by
  refine (points_locate hx).bind fun _ _ => ?_
  cases len with
  | none =>
    exact (points_allocate fun h => h.serves_define ..).bind fun v hv => points_declare hx hv.1
  | some len =>
    exact (points_allocate fun h => h.serves_defineArray (hlen len rfl) _ _).bind fun a ha =>
      points_declare hx ha

theorem points_openProcedure (name : String) {pos : Pos} (h : P pos) :
    (openProcedure name pos).Points P true true :=
  (points_allocate fun h => h.serves_define ..).bind fun _ hv =>
    (points_putProcedure ⟨h, hv.1⟩).bind fun _ _ => points_pure trivial

theorem points_declareProcedure {p : Token} (h : P p.pos) :
    (declareProcedure p).Points P b true := by
  refine .get fun g hg => ?_
  dsimp only
  split
  · rename_i scope hscope
    have hset : (set { g with scope := scope } : Gen PUnit).Points P b b := by
      refine fun _ _ => ⟨{ hg with symbols := ?_ }, trivial⟩
      split at hscope
      · cases hscope
      · rw [Scope.symbols_declareProcedure hscope]
        exact hg.symbols
    exact hset.bind fun _ _ => (points_locate h).bind fun _ _ =>
      (points_openProcedure _ h).bind fun _ _ => points_pure trivial
  · exact points_complain h

theorem points_closeProcedure {p : Procedure} (h : P p.pos ∧ p.selector.Placed) :
    (closeProcedure p).Points P b b :=
  (points_emitEntry rfl).bind fun _ _ => (points_emitFitting (by simp [Line.fits])).bind fun _ _ =>
    points_putProcedure h

theorem points_endProcedure (name : String) : (endProcedure name).Points P b b :=
  .procedure? (points_pure trivial) fun _ hp => points_closeProcedure hp

theorem points_inScope {code : Gen Unit} (h : code.Points P b b') :
    (inScope code).Points P b b' := by
  have henter : (modify fun g => { g with scope := g.scope.enter } : Gen Unit).Points P b b :=
    fun _ hg => ⟨{ hg with }, trivial⟩
  exact henter.bind fun _ _ => h.bind fun _ _ => fun g hg =>
    ⟨{ hg with symbols := fun s hs => hg.symbols s (g.scope.symbols_leave_sublist.subset hs) },
      trivial⟩

theorem points_dispatch : dispatch.Points P b b := by
  refine .get fun g hg => ?_
  dsimp only
  split
  · rename_i p hp
    exact points_complain (hg.procedures p (List.mem_of_find?_eq_some hp)).1
  · refine points_updateCode (fun h hs => ?_) isEdit_of_dispatch
    obtain ⟨edits, hedits, h⟩ := of_bind_ok h
    refine Sequence.forall_splice h hs fun e he => ?_
    obtain ⟨p, hp, hedit⟩ := (mem_edits hedits).1 he
    have hselector := (hg.procedures p hp).2
    cases hedit with
    | finish _ _ hedit => exact hedit ▸ (Territory.plain_returnDispatch _ hselector).keeps.fits
    | call _ _ _ hedit => exact hedit ▸ (Territory.plain_selectCall _ hselector).keeps.fits

end Gen

open Gen in
theorem Block.points {block : Block} (h : block.IsAt P) (hfit : block.arraysFit = true)
    (label name : String) : (block.generate label name).Points P b b := by
  induction block generalizing b label name with
  | fault why => exact points_fail h
  | code s => exact (points_place label).bind fun _ _ => Stmt.points h
  | declare x w len rest ih =>
    obtain ⟨hlen, hrest⟩ := Bool.and_eq_true_iff.1 hfit
    exact (points_declareVariable name h.1 (by rintro n rfl; simpa using hlen)).unplaced.bind
      fun _ _ => ih h.2 hrest label name
  | procedure p body close rest ihb ihr =>
    obtain ⟨hp, hbody, hclose, hrest⟩ := h
    obtain ⟨hfit, hfit'⟩ := Bool.and_eq_true_iff.1 hfit
    exact (points_declareProcedure hp).unplaced.bind fun _ _ =>
      (points_inScope (ihb hbody hfit _ _)).bind fun _ _ =>
        (points_pass hclose).bind fun _ _ => (points_endProcedure _).bind fun _ _ =>
          ihr hrest hfit' label name

open Gen in
theorem Program.points {p : Program} (h : p.IsAt P) (hfit : p.block.arraysFit = true) :
    p.generate.Points P b b :=
  (points_emitFitting (by decide)).bind fun _ _ =>
    (points_inScope (Block.points h.1 hfit _ _)).bind fun _ _ =>
      (points_pass h.2).bind fun _ _ => points_dispatch

end NibblePascal
