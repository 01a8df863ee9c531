import NibblePascal.Proofs.Fragments.Product
import NibblePascal.Proofs.Fragments.Quotient
import NibblePascal.Proofs.Simulation.Store

/-!
# The code of expressions

The code of an expression leaves the value of the expression in the scalar it names, and
changes no cell that was in use before it.  Without a value it never ends.

* `image.Yields ρ lines spare m v x`: the lines put the value `x` into `v`;
* `Expr.Coded.yields` is the statement above.
-/

namespace NibblePascal

/-! ### Lines that compute a value -/

namespace Image

variable {image : Image} {ρ : String → Nat} {lines lines' : List Line} {P Q : Nat → Prop}
  {m m' : Memory} {u v : Var} {x : Option Val}

/-- The run never leaves the lines. -/
def Stalls (image : Image) (ρ : String → Nat) (lines : List Line) (m : Memory) : Prop :=
  ∀ pc out inp, image.Holds ρ pc lines → ∀ k, image.Lasts k ⟨pc, m, out, inp⟩

theorem Stalls.append_right (h : image.Stalls ρ lines m) :
    image.Stalls ρ (lines ++ lines') m :=
  fun pc out inp hold => h pc out inp ((holds_append ..).1 hold).1

theorem Turns.stalls (h : image.Turns ρ lines m m') (h' : image.Stalls ρ lines' m') :
    image.Stalls ρ (lines ++ lines') m := by
  intro pc out inp hold k
  obtain ⟨hold₁, hold₂⟩ := (holds_append ..).1 hold
  exact .of_leads (h pc out inp hold₁) (h' _ out inp hold₂ k)

/-- The lines put a value into `v` and change no cell outside `P`, or never end if there is
no value. -/
def Yields (image : Image) (ρ : String → Nat) (lines : List Line) (P : Nat → Prop) (m : Memory)
    (v : Var) : Option Val → Prop
  | some x => ∃ m', image.Turns ρ lines m m' ∧ m'.Nibbles ∧ m.SameBut P m' ∧
      m'.get v = x.num ∧ v.width = x.width
  | none => image.Stalls ρ lines m

theorem Yields.mono (h : image.Yields ρ lines P m v x) (hPQ : ∀ addr, P addr → Q addr) :
    image.Yields ρ lines Q m v x := by
  cases x with
  | none => exact h
  | some x =>
    obtain ⟨m', hturns, hn, hsame, hx⟩ := h
    exact ⟨m', hturns, hn, hsame.mono hPQ, hx⟩

/-- The rest of the lines may change more than the first part did. -/
theorem Yields.bind {f : Val → Option Val} (h : image.Yields ρ lines Q m u x)
    (hQP : ∀ addr, Q addr → P addr)
    (h' : ∀ m' y, m'.Nibbles → m.SameBut Q m' → m'.get u = y.num → u.width = y.width →
      image.Yields ρ lines' P m' v (f y)) :
    image.Yields ρ (lines ++ lines') P m v (x.bind f) := by
  cases x with
  | none => exact Stalls.append_right h
  | some x =>
    obtain ⟨m₁, hturns, hn, hsame, hx, hw⟩ := h
    have h₁ := h' m₁ x hn hsame hx hw
    rw [Option.bind_some]
    cases hy : f x with
    | none =>
      rw [hy] at h₁
      exact hturns.stalls h₁
    | some y =>
      rw [hy] at h₁
      obtain ⟨m₂, hturns', hn', hsame', hy⟩ := h₁
      exact ⟨m₂, hturns.append hturns', hn', (hsame.mono hQP).trans hsame', hy⟩

theorem Yields.of_turns (h : image.Turns ρ lines m m') (hsame : m.SameBut P m')
    (h' : image.Yields ρ lines' P m' v x) : image.Yields ρ (lines ++ lines') P m v x := by
  cases x with
  | none => exact h.stalls h'
  | some x =>
    obtain ⟨m'', hturns, hn, hsame', hx⟩ := h'
    exact ⟨m'', h.append hturns, hn, hsame.trans hsame', hx⟩

theorem turns_freeLines (v : Var) (m : Memory) : image.Turns ρ (freeLines v) m m := by
  unfold freeLines
  split
  · exact .release v.addr m
  · exact .nil m

theorem Yields.append_turns (h : image.Yields ρ lines P m v x)
    (h' : ∀ m, image.Turns ρ lines' m m) : image.Yields ρ (lines ++ lines') P m v x := by
  cases x with
  | none => exact Stalls.append_right h
  | some x =>
    obtain ⟨m', hturns, hrest⟩ := h
    exact ⟨m', hturns.append (h' m'), hrest⟩

end Image

/-! ### Operands of one width -/

section

variable {image : Image} {ρ : String → Nat} {room : Nat → Prop} {s s' : Stock} {vs : List Var}
  {a b a' b' v v' res : Var} {w : Width} {lines : List Line} {m : Memory} {op : BinaryOp}

variable (image ρ) in
theorem Converted.yields (h : Converted s v w lines v' s') (hw : Workspace room s (v :: vs))
    (hm : m.Nibbles) :
    image.Yields ρ lines s.memory.Spare m v' (some ⟨w, m.get v % w.limit⟩) := by
  cases h with
  | same hv =>
    refine ⟨m, .nil m, hm, .refl _ m, ?_, hv⟩
    rw [← hv]
    exact (Nat.mod_eq_of_lt (Memory.get_lt hm v)).symm
  | resized _ ht =>
    obtain ⟨hw', hres, htemp, hspare⟩ := hw.take ht
    have hplaced := hw'.placed (.head _)
    have hclear := (hw'.apart_head htemp (.head _)).symm.clear
    refine ⟨m.set v' (m.get v), ?_, Memory.nibbles_set hm, Memory.sameBut_set hspare _, ?_, hres⟩
    · exact .append (.of_transforms
        (Code.transforms_resize hm (hw.placed (.head _)) hplaced hclear))
        (Image.turns_freeLines v _)
    · rw [Memory.get_set_same hplaced, Var.cells, hres]
      rfl

variable (image ρ) in
/-- Both operands keep their values. -/
theorem Matched.turns (h : Matched s a b lines a' b' s') (hw : Workspace room s (b :: a :: vs))
    (hm : m.Nibbles) :
    ∃ m', image.Turns ρ lines m m' ∧ m'.Nibbles ∧ m.SameBut s.memory.Spare m' ∧
      m'.get a' = m.get a ∧ m'.get b' = m.get b ∧
      a'.width = a.width.wider b.width ∧ b'.width = a.width.wider b.width := by
  have hkept {m' : Memory} (hsame : m.SameBut s.memory.Spare m') {v : Var} (hv : v ∈ b :: a :: vs) :
      m'.get v = m.get v := hsame.get_eq (hw.held v hv).not_spare
  have hlimit {u v : Var} (hlt : u.cells < v.cells) : m.get u % v.width.limit = m.get u :=
    Nat.mod_eq_of_lt ((Memory.get_lt hm u).trans_le (Nat.pow_le_pow_right (by decide) hlt.le))
  cases h with
  | same heq => exact ⟨m, .nil m, hm, .refl _ m, rfl, rfl, by simp [Width.wider, heq]⟩
  | left hlt hc =>
    obtain ⟨m', hturns, hn, hsame, hget, hwidth⟩ := hc.yields image ρ hw.swap hm
    have hwider : a.width.wider b.width = b.width := by
      simp [Width.wider, Width.isBelow, show a.width.cells < b.width.cells from hlt]
    exact ⟨m', hturns, hn, hsame, hget.trans (hlimit hlt), hkept hsame (.head _),
      hwidth.trans hwider.symm, hwider.symm⟩
  | right hlt hc =>
    obtain ⟨m', hturns, hn, hsame, hget, hwidth⟩ := hc.yields image ρ hw hm
    have hwider : a.width.wider b.width = a.width := by
      simp [Width.wider, Width.isBelow, show b.width.cells ≤ a.width.cells from Nat.le_of_lt hlt]
    exact ⟨m', hturns, hn, hsame, hkept hsame (.tail _ (.head _)), hget.trans (hlimit hlt),
      hwider.symm, hwidth.trans hwider.symm⟩

/-- An operator of the arithmetic unit. -/
theorem BinaryOp.apply_of_alu {alu : AluOp} (h : op.alu? = some alu) {limit x y : Nat}
    (hx : x < limit) (hy : y < limit) (hpow : ∃ k, limit = 2 ^ k) :
    alu ≠ .shr ∧ alu ≠ .shl ∧
      op.apply limit x y = some (alu.total false limit x y % limit) := by
  obtain ⟨k, rfl⟩ := hpow
  cases op <;> cases h <;> refine ⟨nofun, nofun, ?_⟩ <;>
    simp only [BinaryOp.apply, AluOp.total, Bool.toNat_false, Nat.add_zero, Option.some.injEq]
  · exact (Nat.mod_eq_of_lt (Nat.and_lt_two_pow x hy)).symm
  · exact (Nat.mod_eq_of_lt (Nat.or_lt_two_pow hx hy)).symm
  · exact (Nat.mod_eq_of_lt (Nat.xor_lt_two_pow hx hy)).symm

/-- The cells that an operator changes: those of its result and of its own temporaries. -/
theorem Memory.SameOff.sameBut_result {m m' : Memory} {u w : Var} {s₁ : Stock}
    (h : m.SameOff [res, u, w] m') (hu : ∀ addr, u.Covers addr → s.memory.Spare addr)
    (hw : ∀ addr, w.Covers addr → s₁.memory.Spare addr)
    (hmono : ∀ addr, s₁.memory.Spare addr → s.memory.Spare addr) :
    m.SameBut (fun addr => s.memory.Spare addr ∨ res.Covers addr) m' := by
  refine h.sameBut fun v hv addr hc => ?_
  simp only [List.mem_cons, List.not_mem_nil, or_false] at hv
  obtain rfl | rfl | rfl := hv
  exacts [.inr hc, .inl (hu addr hc), .inl (hmono addr (hw addr hc))]

variable (image ρ) in
theorem Operated.yields (h : Operated s a b res op lines s')
    (hw : Workspace room s (res :: b :: a :: vs)) (htemp : res.temp = true)
    (hb : b.width = a.width) (hres : res.width = a.width) (hm : m.Nibbles) :
    image.Yields ρ lines (fun addr => s.memory.Spare addr ∨ res.Covers addr) m res
      ((op.apply a.width.limit (m.get a) (m.get b)).map (⟨a.width, ·⟩)) := by
  have ha := hw.placed (v := a) (by simp)
  have hb' := hw.placed (v := b) (by simp)
  have hplaced := hw.placed (v := res) (by simp)
  have hresb : res.Apart b := hw.apart_head htemp (by simp)
  have hresa : res.Apart a := hw.apart_head htemp (by simp)
  have hcells : res.cells = a.cells := congrArg Width.cells hres
  have hcellsb : b.cells = a.cells := congrArg Width.cells hb
  have hlimit : a.width.limit = 16 ^ res.cells := congrArg (16 ^ ·) hcells.symm
  cases h with
  | combine halu =>
    have hlta : m.get a < a.width.limit := Memory.get_lt hm a
    have hltb : m.get b < a.width.limit := hb ▸ Memory.get_lt hm b
    obtain ⟨hshr, hshl, happly⟩ := BinaryOp.apply_of_alu halu hlta hltb
      ⟨4 * a.cells, by rw [Nat.pow_mul]; rfl⟩
    rw [happly]
    refine ⟨_, .of_transforms (Code.transforms_combine _ hm ha hb' hplaced hcellsb.symm hcells.symm
      hresa.symm.clear hresb.symm.clear hshr hshl), Memory.nibbles_set hm,
      Memory.sameBut_set (fun addr hc => .inr hc) _, ?_, hres⟩
    rw [Memory.get_set_same hplaced, hlimit]
  | @multiply u w s₁ s₂ hu hw' =>
    obtain ⟨hw₁, hwu, htu, hsu⟩ := hw.take hu
    obtain ⟨hw₂, hww, htw, hsw⟩ := hw₁.take hw'
    have hu' : u.cells = res.cells := (congrArg Width.cells hwu).trans hcells.symm
    have hw'' : w.cells = res.cells := (congrArg Width.cells hww).trans hcells.symm
    have hparts : Code.ProductParts res u w :=
      ⟨hplaced, hw₁.placed (.head _), hw₂.placed (.head _), hu', hw'',
        (hw₁.apart_head htu (by simp)).symm, (hw₂.apart_head htw (by simp)).symm,
        (hw₂.apart_head htw (by simp)).symm⟩
    obtain ⟨m', hturns, hn, hsame, hget⟩ := Code.turns_product image ρ
      (n := s₂.labels) hparts hm ha hb' hcells.symm (hcellsb.trans hcells.symm)
      (hw₁.apart_head htu (by simp)).symm (hw₁.apart_head htu (by simp)).symm
      (hw₂.apart_head htw (by simp)).symm
    refine ⟨m', hturns.comment _, hn, hsame.sameBut_result hsu hsw
      (fun addr => hw.spare_mono hw₁ (by simp)), ?_, hres⟩
    rw [hget, hlimit]
  | @divide u w s₁ s₂ remainder hu hw' =>
    obtain ⟨hw₁, hwu, htu, hsu⟩ := hw.take hu
    obtain ⟨hw₂, hww, htw, hsw⟩ := hw₁.take hw'
    have hu' : u.cells = res.cells := (congrArg Width.cells hwu).trans hcells.symm
    have hw'' : w.cells = res.cells := (congrArg Width.cells hww).trans hcells.symm
    have hparts : Code.ReduceParts b res u w :=
      { placed_r := hw₁.placed (.head _)
        placed_w := hw₂.placed (.head _)
        cells_w := hw''.trans hu'.symm
        wr := hw₂.apart_head htw (by simp)
        placed_y := hb'
        placed_q := hplaced
        cells_y := hcellsb.trans (hcells.symm.trans hu'.symm)
        cells_q := hu'.symm
        yq := hresb.symm
        yr := (hw₁.apart_head htu (by simp)).symm
        yw := (hw₂.apart_head htw (by simp)).symm
        qr := (hw₁.apart_head htu (by simp)).symm
        qw := (hw₂.apart_head htw (by simp)).symm }
    have hcx : a.cells = u.cells := hcells.symm.trans hu'.symm
    have hxr : a.Apart u := (hw₁.apart_head htu (by simp)).symm
    by_cases hzero : m.get b = 0
    · have happly : (if remainder then BinaryOp.mod else .div).apply a.width.limit (m.get a)
          (m.get b) = none := by cases remainder <;> simp [BinaryOp.apply, hzero]
      rw [happly]
      intro pc out inp hold k
      exact Code.lasts_quotient hparts hm ha hcx hxr remainder hzero hold k
    · have happly : (if remainder then BinaryOp.mod else .div).apply a.width.limit (m.get a)
          (m.get b) = some (if remainder then m.get a % m.get b else m.get a / m.get b) := by
        cases remainder <;> simp [BinaryOp.apply, hzero]
      obtain ⟨m', hturns, hn, hsame, hget⟩ := Code.turns_quotient image ρ
        (n := s₂.labels) hparts hm ha hcx hxr remainder hzero
      rw [happly]
      exact ⟨m', hturns.comment _, hn, hsame.sameBut_result hsu hsw
        (fun addr => hw.spare_mono hw₁ (by simp)), hget, hres⟩

end

/-! ### Expressions -/

/-- Half a scalar consists of half its cells. -/
theorem Val.half_spec (upper : Bool) {v res : Var} {w : Width} {m : Memory}
    (hhalf : v.width.half? = some w) (hres : res.width = w) (hm : m.Nibbles) :
    (if upper then v.cells / 2 else 0) + res.cells ≤ v.cells ∧
      m.number (v.addr + if upper then v.cells / 2 else 0) res.cells =
        (Val.half upper ⟨v.width, m.get v⟩).num ∧
      res.width = (Val.half upper ⟨v.width, m.get v⟩).width := by
  cases hv : v.width with
  | nibble => simp [hv, Width.half?] at hhalf
  | byte =>
    obtain rfl : w = .nibble := by simpa [hv, Width.half?] using hhalf.symm
    have hcells : v.cells = 1 + 1 := congrArg Width.cells hv
    have hcells' : res.cells = 1 := congrArg Width.cells hres
    have hlow : m.number v.addr (1 + 1) % 16 ^ 1 = m.number v.addr 1 :=
      Memory.number_mod hm (Nat.le_add_right 1 1)
    have hhigh : m.number v.addr (1 + 1) / 16 ^ 1 = m.number (v.addr + 1) 1 :=
      Memory.number_div hm 1
    cases upper <;> simp_all [Val.half, Memory.get]
  | word =>
    obtain rfl : w = .byte := by simpa [hv, Width.half?] using hhalf.symm
    have hcells : v.cells = 2 + 2 := congrArg Width.cells hv
    have hcells' : res.cells = 2 := congrArg Width.cells hres
    have hlow : m.number v.addr (2 + 2) % 16 ^ 2 = m.number v.addr 2 :=
      Memory.number_mod hm (Nat.le_add_right 2 2)
    have hhigh : m.number v.addr (2 + 2) / 16 ^ 2 = m.number (v.addr + 2) 2 :=
      Memory.number_div hm 2
    cases upper <;> simp_all [Val.half, Memory.get]

namespace Expr.Coded

variable {image : Image} {ρ : String → Nat} {room : Nat → Prop} {sc : Scope} {s s' : Stock}
  {vs : List Var} {e : Expr} {lines : List Line} {v : Var} {m : Memory} {out : Vector Nat 16}

/-- A constant in a new temporary. -/
theorem yields_constant {w : Width} (n : Nat) (hw : Workspace room s vs) (ht : s.Takes w v s')
    (hm : m.Nibbles) :
    image.Yields ρ (Code.constant n v) s.memory.Spare m v (some ⟨w, n % w.limit⟩) := by
  obtain ⟨hw', hwidth, -, hspare⟩ := hw.take ht
  have hplaced := hw'.placed (.head _)
  refine ⟨m.set v n, .of_transforms (Code.transforms_constant hm hplaced n),
    Memory.nibbles_set hm, Memory.sameBut_set hspare n, ?_, hwidth⟩
  rw [Memory.get_set_same hplaced, Var.cells, hwidth]
  rfl

/-- The value is in a temporary or in a declared scalar. -/
theorem temp_or_declared (h : Coded sc s e lines v s') (hr : sc.Ready room)
    (hw : Workspace room s vs) : v.temp = true ∨ ∃ x, sc.find? x = some (.scalar v) := by
  induction h generalizing vs with
  | scalar hx => exact .inr ⟨_, hx⟩
  | literal ht => exact .inl ((hw.locate _).take ht).2.2.1
  | negLiteral ht => exact .inl ((hw.locate _).take ht).2.2.1
  | element _ hi htr => exact .inl ((hi.books hr.ledger (hw.locate _)).take htr).2.2.1
  | halfNibble hx _ => exact .inr ⟨_, hx⟩
  | half _ _ ht => exact .inl ((hw.locate _).take ht).2.2.1
  | paren _ ih => exact ih hw
  | negate h hc ht => exact .inl ((hc.books hr.ledger (h.books hr.ledger hw)).take ht).2.2.1
  | binary ha hb hm ht =>
    exact .inl ((hm.books hr.ledger (hb.books hr.ledger (ha.books hr.ledger hw))).take ht).2.2.1

/-- The value can be copied to a declared scalar. -/
theorem clear (h : Coded sc s e lines v s') (hr : sc.Ready room) (hw : Workspace room s vs)
    {x : String} {dst : Var} (hx : sc.find? x = some (.scalar dst)) : v.Clear dst := by
  obtain htemp | ⟨y, hy⟩ := h.temp_or_declared hr hw
  · exact ((h.books hr.ledger hw).apart_outside (.head _) htemp (hr.scalar hx)).clear
  · by_cases hyx : y = x
    · subst hyx
      obtain rfl : v = dst := by simpa using hy.symm.trans hx
      exact .refl v
    · exact (hr.apart hy hx hyx).clear

variable (image ρ out) in
theorem yields (h : Coded sc s e lines v s') (hr : sc.Ready room) (hw : Workspace room s vs)
    (hm : m.Nibbles) :
    image.Yields ρ lines s.memory.Spare m v (e.value sc.decls (sc.view m out)) := by
  -- the induction carries any list of variables in use, since operands wait for one another
  induction h generalizing vs m with
  | scalar hx =>
    rw [Expr.value, Scope.decls_scalar? hx, Scope.view_scalar hx]
    exact ⟨m, .nil m, hm, .refl _ m, rfl, rfl⟩
  | @literal s s' pos n v ht => exact (yields_constant n (hw.locate pos) ht hm :)
  | @negLiteral s s' pos n v ht =>
    have hconst : image.Yields ρ _ (s.locate pos).memory.Spare m v _ :=
      yields_constant ((0x10000 - n) % 0x10000) (hw.locate pos) ht hm
    rwa [show Width.word.limit = 0x10000 from rfl, Nat.mod_mod] at hconst
  | @element s s₁ s₂ s₃ x index arr lines i res offset ha hi htr hto ihi =>
    have hw₁ := hi.books hr.ledger (hw.locate x.pos)
    obtain ⟨hw₂, hwidth, hres, hspare₂⟩ := hw₁.take htr
    obtain ⟨hw₃, hbyte, hoff, hspare₃⟩ := hw₂.take hto
    simp only [Expr.value, Scope.decls_array? ha, Option.bind_eq_bind, Option.bind_some]
    refine (ihi (hw.locate x.pos) hm).bind (fun _ => id) fun m₁ y hm₁ hsame hget _ =>
      .append_turns ?_ (Image.turns_freeLines i)
    obtain ⟨m₂, htransforms, hm₂, hsame₂, hget₂⟩ := Code.transforms_readElement hm₁ (hr.array ha).1
      (hw₁.placed (.head _)) (hw₃.placed (.head _)) (hw₂.placed (.head _)) hbyte hwidth
      (hw₃.apart_head hoff (by simp)).symm (hw₃.apart_head hoff (by simp)).symm
    refine ⟨m₂, .of_transforms htransforms, hm₂, hsame₂.sameBut ?_, ?_, hwidth⟩
    · intro v hv addr hc
      simp only [List.mem_cons, List.not_mem_nil, or_false] at hv
      obtain rfl | rfl := hv
      · exact (hw.locate x.pos).spare_mono hw₁ (by simp) (hspare₂ addr hc)
      · exact (hw.locate x.pos).spare_mono hw₂ (by simp) (hspare₃ addr hc)
    · have hview := hr.view_congr (hsame.mono fun _ => hw.room_of_spare) out
      rw [hget₂, hget, ← hview, Scope.view_element ha]
  | halfNibble hx hn =>
    rw [Expr.value, Scope.decls_scalar? hx, Scope.view_scalar hx]
    exact ⟨m, .nil m, hm, .refl _ m, by simp [Val.half, hn], by simp [Val.half, hn]⟩
  | @half s s' pos upper x v res w hx hhalf ht =>
    rw [Expr.value, Scope.decls_scalar? hx, Scope.view_scalar hx]
    obtain ⟨hw₁, hwidth, htemp, hspare⟩ := ((hw.locate pos).declared (hr.scalar hx)).take ht
    obtain ⟨hstart, hnum, hhalfw⟩ := Val.half_spec upper hhalf hwidth hm
    have hapart := (hw₁.apart_head htemp (.head _)).symm
    refine ⟨_, .of_transforms (Code.transforms_extract hm (hr.scalar hx).placed
      (hw₁.placed (.head _)) hstart hapart), Memory.nibbles_set hm,
      Memory.sameBut_set hspare _, ?_, hhalfw⟩
    rw [Memory.get_set_same (hw₁.placed (.head _)), Nat.mod_eq_of_lt (hm.number_lt ..), hnum]
  | paren _ ih => exact ih hw hm
  | @negate s s₁ s₂ s₃ e lines lines' v wide res h hc ht ih =>
    have hw₁ := h.books hr.ledger hw
    have hw₂ := hc.books hr.ledger hw₁
    obtain ⟨hw₃, hwidth, htemp, hspare⟩ := hw₂.take ht
    rw [Expr.value, Option.map_eq_bind]
    refine (ih hw hm).bind (fun _ => id) fun m₁ y hm₁ hsame hget _ => ?_
    obtain ⟨m₂, hturns₂, hm₂, hsame₂, hget₂, hwide⟩ := hc.yields image ρ hw₁ hm₁
    have hplaced := hw₃.placed (v := res) (by simp)
    have hplaced' := hw₃.placed (v := wide) (by simp)
    have hapart : res.Apart wide := hw₃.apart_head htemp (by simp)
    have hcells : res.cells = wide.cells := congrArg Width.cells hwidth
    have hfour : res.cells = 4 := hcells.trans (congrArg Width.cells hwide)
    have hm₃ : (m₂.set res 0).Nibbles := Memory.nibbles_set hm₂
    have hspare' : ∀ addr, res.Covers addr → s.memory.Spare addr := fun addr hc =>
      hw.spare_mono hw₂ (by simp) (hspare addr hc)
    refine ⟨_, hturns₂.append (.append (.of_transforms (Code.transforms_clear hm₂ hplaced))
      (.append (.of_transforms (Code.transforms_combine _ hm₃ hplaced hplaced' hplaced hcells rfl
        (.refl _) hapart.symm.clear nofun nofun)) (Image.turns_freeLines wide _))),
      Memory.nibbles_set hm₃, ?_, ?_, hwidth.trans hwide⟩
    · exact ((hsame₂.mono fun _ => hw.spare_mono hw₁ (by simp)).trans
        (Memory.sameBut_set hspare' 0)).trans (Memory.sameBut_set hspare' _)
    · rw [Memory.get_set_same hplaced, Memory.get_set_same hplaced,
        Memory.get_set_of_apart hapart.symm, hget₂, hget, hfour]
      have hlt : y.num < Width.word.limit := by
        rw [← hget]
        exact (Memory.get_lt hm₁ v).trans_le (Nat.pow_le_pow_right (by decide) v.cells_le)
      rw [Nat.mod_eq_of_lt hlt]
      simp [AluOp.total, Val.negated]
  | @binary s s₁ s₂ s₃ s₄ s₅ op lhs rhs lines₁ lines₂ lines₃ lines₄ a b a' b' res ha hb hmatch ht
      ho iha ihb =>
    have hw₁ := ha.books hr.ledger hw
    have hw₂ := hb.books hr.ledger hw₁
    have hw₃ := hmatch.books hr.ledger hw₂
    obtain ⟨hw₄, hwidth, htemp, hspare⟩ := hw₃.take ht
    have hmono {addr : Nat} : s₁.memory.Spare addr → s.memory.Spare addr :=
      hw.spare_mono hw₁ (by simp)
    simp only [Expr.value, Option.bind_eq_bind]
    refine (iha hw hm).bind (fun _ => id) fun m₁ x hm₁ hsame₁ hget₁ hwa => ?_
    rw [← hr.view_congr (hsame₁.mono fun _ => hw.room_of_spare)]
    refine (ihb hw₁ hm₁).bind (fun _ => hmono) fun m₂ y hm₂ hsame₂ hget₂ hwb => ?_
    obtain ⟨m₃, hturns₃, hm₃, hsame₃, hgeta, hgetb, hwa', hwb'⟩ :=
      hmatch.turns image ρ hw₂ hm₂
    have hyields := ho.yields image ρ hw₄ htemp (hwb'.trans hwa'.symm) hwidth hm₃
    have hkept : m₂.get a = x.num := (hsame₂.get_eq (hw₁.held a (.head _)).not_spare).trans hget₁
    rw [hgeta, hgetb, hkept, hget₂, hwa', hwa, hwb] at hyields
    refine Image.Yields.of_turns hturns₃ (hsame₃.mono fun _ => hw.spare_mono hw₂ (by simp)) ?_
    refine (hyields.mono ?_).append_turns
      fun m => (Image.turns_freeLines a' m).append (Image.turns_freeLines b' m)
    rintro addr (hs | hc)
    · exact hw.spare_mono hw₄ (fun _ hv => by simp [hv]) hs
    · exact hw.spare_mono hw₃ (by simp) (hspare addr hc)

end Expr.Coded

end NibblePascal
