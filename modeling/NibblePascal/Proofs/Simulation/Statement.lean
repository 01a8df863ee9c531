import NibblePascal.Proofs.Fragments.Port
import NibblePascal.Proofs.Generation.Statement
import NibblePascal.Proofs.Simulation.Condition

/-!
# The code of single statements

The code of a statement does to the memory what the statement does to the store.

* `sc.Kept room m m'`: outside the room, only the variables in scope have changed;
* `E.Performs room lines m out x`: the lines leave the store `x`, or never end if there is none;
* `Stmt.Coded.performs`: what the statements do that are made of no others.
-/

namespace NibblePascal

open Code

/-! ### What statements leave alone -/

namespace Scope

variable {sc : Scope} {room room' : Nat → Prop} {m m' m'' : Memory} {x : String} {v : Var}

/-- The cells of bank 0 outside the room that belong to no variable in scope are unchanged. -/
def Kept (sc : Scope) (room : Nat → Prop) (m m' : Memory) : Prop :=
  ∀ addr < scalarSpace, ¬ room addr →
    (∀ x v, sc.find? x = some (.scalar v) → ¬ v.Covers addr) → m'.read addr = m.read addr

theorem Kept.refl (sc : Scope) (room : Nat → Prop) (m : Memory) : sc.Kept room m m :=
  fun _ _ _ _ => rfl

theorem Kept.trans (h : sc.Kept room m m') (h' : sc.Kept room m' m'') : sc.Kept room m m'' :=
  fun addr hlt hroom hsc => (h' addr hlt hroom hsc).trans (h addr hlt hroom hsc)

theorem Kept.mono (h : sc.Kept room m m') (hsub : ∀ addr, room addr → room' addr) :
    sc.Kept room' m m' :=
  fun addr hlt hroom hsc => h addr hlt (fun hr => hroom (hsub addr hr)) hsc

theorem Kept.of_sameBut (h : m.SameBut room m') : sc.Kept room m m' :=
  fun addr _ hroom _ => h addr hroom

theorem kept_set (hx : sc.find? x = some (.scalar v)) (n : Nat) : sc.Kept room m (m.set v n) :=
  fun _ _ _ hsc => Memory.read_set_of_not (hsc x v hx)

end Scope

/-! ### Single statements -/

/-- The setting of a simulation: the code, the names in scope and the input ports. -/
structure Setting where
  image : Image
  place : String → Nat
  scope : Scope
  inp : Vector Nat 16

namespace Setting

/-- The run goes through the lines to their end. -/
def Goes (E : Setting) (lines : List Line) (m : Memory) (out : Vector Nat 16) (m' : Memory)
    (out' : Vector Nat 16) : Prop :=
  ∀ pc, E.image.Holds E.place pc lines →
    E.image.Leads ⟨pc, m, out, E.inp⟩ ⟨pc + codeSize lines, m', out', E.inp⟩

/-- The lines run to their end and leave the store `σ'`. -/
def Executes (E : Setting) (room : Nat → Prop) (lines : List Line) (m : Memory) (out : Vector Nat 16) (σ' : Store) :
    Prop :=
  ∃ m', m'.Nibbles ∧ E.scope.view m' σ'.out = σ' ∧ E.scope.Kept room m m' ∧
    E.Goes lines m out m' σ'.out

/-- The run never leaves the lines. -/
def Hangs (E : Setting) (lines : List Line) (m : Memory) (out : Vector Nat 16) : Prop :=
  ∀ pc, E.image.Holds E.place pc lines → ∀ k, E.image.Lasts k ⟨pc, m, out, E.inp⟩

/-- The lines leave a store, or never end if there is none. -/
def Performs (E : Setting) (room : Nat → Prop) (lines : List Line) (m : Memory) (out : Vector Nat 16) :
    Option Store → Prop
  | some σ' => E.Executes room lines m out σ'
  | none => E.Hangs lines m out

variable {E : Setting} {room : Nat → Prop} {lines lines' : List Line} {m m' m'' : Memory}
  {out out' out'' : Vector Nat 16} {σ' σ'' : Store}

theorem Goes.append (h : E.Goes lines m out m' out') (h' : E.Goes lines' m' out' m'' out'') :
    E.Goes (lines ++ lines') m out m'' out'' := by
  intro pc hold
  obtain ⟨hold₁, hold₂⟩ := (Image.holds_append ..).1 hold
  rw [codeSize_append, ← Nat.add_assoc]
  exact (h pc hold₁).trans (h' _ hold₂)

theorem Goes.of_turns (h : E.image.Turns E.place lines m m') : E.Goes lines m out m' out :=
  fun pc hold => h pc out E.inp hold

theorem Hangs.append_right (h : E.Hangs lines m out) : E.Hangs (lines ++ lines') m out :=
  fun pc hold => h pc ((Image.holds_append ..).1 hold).1

theorem Goes.hangs (h : E.Goes lines m out m' out') (h' : E.Hangs lines' m' out') :
    E.Hangs (lines ++ lines') m out := by
  intro pc hold k
  obtain ⟨hold₁, hold₂⟩ := (Image.holds_append ..).1 hold
  exact .of_leads (h pc hold₁) (h' _ hold₂ k)

theorem Executes.append (h : E.Executes room lines m out σ')
    (h' : ∀ m', m'.Nibbles → E.scope.view m' σ'.out = σ' → E.scope.Kept room m m' →
      E.Executes room lines' m' σ'.out σ'') : E.Executes room (lines ++ lines') m out σ'' := by
  obtain ⟨m₁, hm₁, hview, hkept, hgoes⟩ := h
  obtain ⟨m₂, hm₂, hview₂, hkept₂, hgoes₂⟩ := h' m₁ hm₁ hview hkept
  exact ⟨m₂, hm₂, hview₂, hkept.trans hkept₂, hgoes.append hgoes₂⟩

/-- The lines change the memory only. -/
theorem Executes.of_turns (h : E.image.Turns E.place lines m m') (hm' : m'.Nibbles)
    (hview : E.scope.view m' out = σ') (hkept : E.scope.Kept room m m') :
    E.Executes room lines m out σ' := by
  obtain rfl : out = σ'.out := by rw [← hview]; rfl
  exact ⟨m', hm', hview, hkept, .of_turns h⟩

/-- A statement begins with an expression. -/
theorem Performs.of_yields {x : Option Val} {v : Var} {P : Nat → Prop} {f : Val → Option Store}
    (h : E.image.Yields E.place lines P m v x) (hP : ∀ addr, P addr → room addr)
    (h' : ∀ m' y, m'.Nibbles → m.SameBut P m' → m'.get v = y.num → v.width = y.width →
      E.Performs room lines' m' out (f y)) :
    E.Performs room (lines ++ lines') m out (x.bind f) := by
  cases x with
  | none => exact fun pc hold => h pc out E.inp ((Image.holds_append ..).1 hold).1
  | some x =>
    obtain ⟨m₁, hturns, hn, hsame, hx, hw⟩ := h
    have hrest := h' m₁ x hn hsame hx hw
    rw [Option.bind_some]
    cases hy : f x with
    | none =>
      rw [hy] at hrest
      exact (Goes.of_turns hturns).hangs hrest
    | some σ' =>
      rw [hy] at hrest
      obtain ⟨m₂, hm₂, hview, hkept, hgoes⟩ := hrest
      exact ⟨m₂, hm₂, hview, (Scope.Kept.of_sameBut (hsame.mono hP)).trans hkept,
        (Goes.of_turns hturns).append hgoes⟩

end Setting

/-- Whether all ports of a statement are there.  Inline assembly may use any. -/
def Stmt.portsFit : Stmt → Bool
  | asm _ _ => false
  | output port _ => port < 16
  | input _ _ port => port < 16
  | seq first rest => first.portsFit && rest.portsFit
  | block body _ => body.portsFit
  | ifThen _ _ yes => yes.portsFit
  | ifElse _ _ yes no => yes.portsFit && no.portsFit
  | whileDo _ _ body => body.portsFit
  | repeatUntil body _ => body.portsFit
  | forDo _ _ _ _ _ body => body.portsFit
  | _ => true

/-- The names in scope are ready, and every input port holds a digit. -/
structure Setting.Ready (E : Setting) (room : Nat → Prop) : Prop where
  scope : E.scope.Ready room
  inputs : ∀ port : Nat, E.inp[port]?.getD 0 < 16

theorem Setting.Ready.mono {E : Setting} {room room' : Nat → Prop} (hE : E.Ready room)
    (hsub : ∀ addr, room' addr → room addr) : E.Ready room' := ⟨hE.scope.mono hsub, hE.inputs⟩

theorem transforms_stepOp {m : Memory} {v : Var} (op : StepOp) (hm : m.Nibbles) (hv : v.Placed) :
    Transforms (op.code v) m (m.set v (op.apply v.width.limit (m.get v))) := by
  have hmod (x : Nat) : m.set v (x % v.width.limit) = m.set v x := Memory.set_mod hm hv
  cases op with
  | shr => exact transforms_shiftRight hm hv
  | shl =>
    rw [StepOp.apply, hmod]
    exact transforms_shiftLeft hm hv
  | inc =>
    rw [StepOp.apply, hmod]
    exact transforms_increment hm hv
  | dec =>
    rw [StepOp.apply, hmod]
    exact transforms_decrement hm hv

theorem StepOp.apply_lt (op : StepOp) {limit n : Nat} (h : n < limit) :
    op.apply limit n < limit := by
  have hpos : 0 < limit := by omega
  cases op with
  | shr => exact (Nat.div_le_self n 2).trans_lt h
  | shl => exact Nat.mod_lt _ hpos
  | inc => exact Nat.mod_lt _ hpos
  | dec => exact Nat.mod_lt _ hpos

theorem lt_of_mem_valueCells {w : Width} {values : List Nat} {n : Nat}
    (h : n ∈ valueCells w values) : n < 16 := by
  simp only [valueCells, List.mem_flatMap, Width.split, List.mem_map] at h
  obtain ⟨_, _, _, _, rfl⟩ := h
  exact Nat.mod_lt _ (by decide)

theorem textCells_eq {cs : List Char} {cells : List Nat} (h : textCells cs = .ok cells) :
    cells = cs.flatMap (fun c => [c.toNat % 16, c.toNat / 16]) ∧ ∀ n ∈ cells, n < 16 := by
  induction cs generalizing cells with
  | nil =>
    obtain rfl : [] = cells := by simpa [textCells] using h
    simp
  | cons c cs ih =>
    simp only [textCells] at h
    split at h
    · rename_i hc
      split at h
      · rename_i cells' hcs
        obtain rfl : _ :: _ :: cells' = cells := by simpa using h
        obtain ⟨rfl, hlt⟩ := ih hcs
        refine ⟨by simp, fun n hn => ?_⟩
        simp only [List.mem_cons] at hn
        obtain rfl | rfl | hn := hn
        · omega
        · omega
        · exact hlt n hn
      · cases h
    · cases h

namespace Stmt.Coded

variable {E : Setting} {room : Nat → Prop} {s s' : Stock} {st : Stmt} {code : List Piece}
  {m : Memory} {out : Vector Nat 16}

/-- The lines after the index and the value of an assignment to an element. -/
theorem performs_writeElement {x : String} {arr : ArrayVar} {i v v' offset : Var}
    {lines : List Line} {s₃ s₄ : Stock} (hr : E.scope.Ready room)
    (hx : E.scope.find? x = some (.array arr)) (hw : Workspace room s [v, i])
    (hc : Converted s v arr.width lines v' s₃) (ho : s₃.Takes .byte offset s₄) (hm : m.Nibbles) :
    E.Executes room (lines ++ (writeElement arr i v' offset ++ (freeLines i ++ freeLines v'))) m out
      ((E.scope.view m out).setElement x arr.width (m.get i) (m.get v % arr.width.limit)) := by
  have hw₃ := hc.books hr.ledger hw
  obtain ⟨hw₄, hbyte, htemp, hspare⟩ := hw₃.take ho
  obtain ⟨m₁, hturns, hm₁, hsame₁, hget₁, hwidth⟩ := hc.yields E.image E.place hw hm
  have hindex : m₁.get i = m.get i := hsame₁.get_eq (hw.held i (by simp)).not_spare
  have hi : i.Placed := hw₄.placed (by simp)
  have hv' : v'.Placed := hw₄.placed (by simp)
  have hio : offset.Apart i := hw₄.apart_head htemp (by simp)
  have hvo : offset.Apart v' := hw₄.apart_head htemp (by simp)
  obtain ⟨m₂, htransforms, hm₂, hsame₂, hnum⟩ := transforms_writeElement hm₁ (hr.array hx).1 hi
    (hw₄.placed (.head _)) hv' hbyte hwidth hio.symm hvo.symm
  have hroom₁ : m.SameBut room m₁ := hsame₁.mono fun _ => hw.room_of_spare
  have hoffset : ∀ addr, offset.Covers addr → room addr :=
    fun addr hcov => hw₃.room_of_spare (hspare addr hcov)
  refine .of_turns (hturns.append (.append (.of_transforms htransforms)
    ((Image.turns_freeLines i _).append (Image.turns_freeLines v' _)))) hm₂ ?_ ?_
  · rw [← hr.view_congr hroom₁ out, ← hindex]
    exact hr.view_setElement hx hm₂ (fun addr hroom hout =>
      hsame₂ addr (fun hcov => hroom (hoffset addr hcov)) hout) (hnum.trans hget₁) out
  · refine (Scope.Kept.of_sameBut hroom₁).trans fun addr hlt hroom _ => ?_
    have hbase : scalarSpace ≤ arr.base := ArrayVar.base_ge (hr.array hx).1
    exact hsame₂ addr (fun hcov => hroom (hoffset addr hcov)) (by omega)

/-- Cells of a list are stored in an array. -/
theorem performs_fillArray {x : String} {arr : ArrayVar} {cells : List Nat}
    (hr : E.scope.Ready room) (hx : E.scope.find? x = some (.array arr))
    (hlen : cells.length ≤ arr.size) (hcells : ∀ n ∈ cells, n < 16) (hm : m.Nibbles) :
    E.Executes room (fillArray arr cells) m out ((E.scope.view m out).fill x cells) := by
  obtain ⟨hplaced, hsize⟩ := hr.array hx
  refine .of_turns (.of_transforms (transforms_fillArray hplaced cells)) (Memory.nibbles_fill hm)
    (hr.view_fill hx (hlen.trans hsize) hcells out) fun addr hlt _ _ => ?_
  have hbase : scalarSpace ≤ arr.base := ArrayVar.base_ge hplaced
  have hfit : arr.base + slotSize ≤ memorySize := ArrayVar.slot_le hplaced
  rw [Memory.read_fill hfit (by omega), if_neg (by omega)]

variable (out) in
/-- Statements that are made of no others. -/
theorem performs (h : Coded E.scope s st code s') (hE : E.Ready room) (hw : Workspace room s [])
    (hsingle : st.isSingle = true) (hports : st.portsFit = true) (hm : m.Nibbles) :
    E.Performs room (code.map Piece.plain) m out
      (st.effect E.scope.decls E.inp (E.scope.view m out)) := by
  have hr := hE.scope
  have hspare : ∀ addr, s.memory.Spare addr → room addr := fun _ => hw.room_of_spare
  cases h with
  | skip => exact .of_turns (.nil m) hm rfl (Scope.Kept.refl _ _ _)
  | nop =>
    exact .of_turns (.of_transforms fun s hb hm => ⟨s, rfl, hb, hm, rfl, rfl⟩) hm rfl
      (Scope.Kept.refl _ _ _)
  | @assign s s' x value dst v lines hx hv =>
    have hw₁ := hv.books hr.ledger hw
    rw [Piece.map_plain_ofLines]
    simp only [Stmt.effect, Scope.decls_scalar? hx, Option.bind_eq_bind, Option.bind_some]
    refine .of_yields (hv.yields E.image E.place out hr hw hm) hspare
      fun m' y hm' hsame hget _ => ?_
    refine .of_turns (.append (.of_transforms (transforms_resize hm' (hw₁.placed (.head _))
      (hr.scalar hx).placed (hv.clear hr hw hx))) (Image.turns_freeLines v _))
      (Memory.nibbles_set hm') ?_ (Scope.kept_set hx _)
    rw [hr.view_set hx, hr.view_congr (hsame.mono hspare), hget]
  | @setElement s s₁ s₂ s₃ s₄ x index value arr i v v' offset lines₁ lines₂ lines₃ hx hi hv hc
      ho =>
    have hw₁ := hi.books hr.ledger hw
    have hw₂ := hv.books hr.ledger hw₁
    rw [Piece.map_plain_ofLines]
    simp only [Stmt.effect, Scope.decls_array? hx, Option.bind_eq_bind, Option.bind_some]
    refine .of_yields (hi.yields E.image E.place out hr hw hm) hspare
      fun m₁ y hm₁ hsame₁ hget₁ _ => ?_
    rw [← hr.view_congr (hsame₁.mono hspare)]
    refine .of_yields (hv.yields E.image E.place out hr hw₁ hm₁) (fun _ => hw₁.room_of_spare)
      fun m₂ z hm₂ hsame₂ hget₂ _ => ?_
    -- the index waits in its variable while the value is computed
    have hindex : m₂.get i = y.num :=
      (hsame₂.get_eq (hw₁.held i (.head _)).not_spare).trans hget₁
    rw [← hr.view_congr (hsame₂.mono fun _ => hw₁.room_of_spare), ← hindex, ← hget₂]
    exact performs_writeElement hr hx hw₂ hc ho hm₂
  | @fillList s x values arr hx hl =>
    rw [Piece.map_plain_ofLines]
    simp only [Stmt.effect, Scope.decls_array? hx, Option.bind_eq_bind, Option.bind_some]
    exact performs_fillArray hr hx hl (fun _ => lt_of_mem_valueCells) hm
  | @fillText s x text arr cs cells hx hu hc hl =>
    obtain ⟨hcells, hlt⟩ := textCells_eq hc
    rw [Piece.map_plain_ofLines]
    simp only [Stmt.effect, hu, Option.bind_eq_bind, Option.bind_some, ← hcells]
    exact performs_fillArray hr hx hl hlt hm
  | @copyArray s x y dst src hx hy hwidth hlen hsize =>
    obtain ⟨hdst, -⟩ := hr.array hx
    obtain ⟨hsrc, hsrcSize⟩ := hr.array hy
    rw [Piece.map_plain_ofLines]
    simp only [Stmt.effect, Scope.decls_array? hy, Option.bind_eq_bind, Option.bind_some]
    refine .of_turns (.comment _ (.of_transforms (transforms_copyArray hsrc hdst)))
      (Memory.nibbles_copy hm) (hr.view_copy hx hy hsrcSize out) fun addr hlt _ _ => ?_
    exact Memory.read_copy_below (hlt.trans_le (ArrayVar.base_ge hdst))
  | @step s op x v hx =>
    rw [Piece.map_plain_ofLines]
    simp only [Stmt.effect, Scope.decls_scalar? hx, Option.bind_eq_bind, Option.bind_some]
    have hlt : m.get v < v.width.limit := Memory.get_lt hm v
    refine .of_turns (.of_transforms (transforms_stepOp op hm (hr.scalar hx).placed))
      (Memory.nibbles_set hm) ?_ (Scope.kept_set hx _)
    rw [hr.view_set hx, Scope.view_scalar hx, Nat.mod_eq_of_lt (op.apply_lt hlt)]
  | @output s s' port value lines v hv =>
    have hw₁ := hv.books hr.ledger hw
    rw [Piece.map_plain_ofLines]
    simp only [Stmt.effect, Option.bind_eq_bind]
    refine .of_yields (hv.yields E.image E.place out hr hw hm) hspare
      fun m' y hm' hsame hget _ => ?_
    have hport : port < 16 := by simpa [Stmt.portsFit] using hports
    refine ⟨m', hm', ?_, Scope.Kept.refl _ _ _, fun pc hold => ?_⟩
    · rw [← hr.view_congr (hsame.mono hspare) out]
      rfl
    · obtain ⟨hold₁, hold₂⟩ := (Image.holds_append ..).1 hold
      have hlead := (leads_output hm' (hw₁.placed (.head _)) hport hold₁).trans
        (Image.turns_freeLines v m' _ (out.setIfInBounds port (m'.get v % 16)) E.inp hold₂)
      rw [codeSize_append, ← Nat.add_assoc]
      rwa [hget] at hlead
  | @input s x port v hx =>
    have hport : port < 16 := by simpa [Stmt.portsFit] using hports
    have hdigit := hE.inputs port
    have hv := (hr.scalar hx).placed
    rw [Piece.map_plain_ofLines]
    simp only [Stmt.effect]
    refine ⟨m.set v (E.inp[port]?.getD 0), Memory.nibbles_set hm, ?_, Scope.kept_set hx _,
      fun pc hold => ?_⟩
    · rw [hr.view_set hx, Nat.mod_eq_of_lt]
      · rfl
      · exact hdigit.trans_le (Nat.le_self_pow v.cells_pos.ne' 16)
    · rintro s ⟨rfl, hb, rfl, rfl, hinp⟩
      obtain ⟨t, hst, hbt, hmt, hot, hit⟩ := transforms_input hm hv hport hdigit s hb rfl hinp
      exact ⟨_, _, Image.steps_of_performAll hold hst, ⟨rfl, hbt, hmt, hot, hit.trans hinp⟩⟩
  | _ => cases hsingle

end Stmt.Coded

end NibblePascal
