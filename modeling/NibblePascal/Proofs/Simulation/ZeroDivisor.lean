import NibblePascal.Proofs.Simulation.Store

/-!
# Divisions by zero

An expression or a condition that code was generated for has no value only if its evaluation comes
to a division by zero.  Operands are evaluated from the left, and the second operand of `and` and
`or` only where the first one does not settle the outcome.

* `Expr.Coded.value_eq_none_iff` and `Cond.Coded.truth_eq_none_iff`: there is no value exactly if a
  division by zero is evaluated.
-/

namespace NibblePascal

/-- The evaluation of an expression comes to a division by zero. -/
inductive Expr.DividesByZero (D : Decls) (σ : Store) : Expr → Prop
  | here {op : BinaryOp} {lhs rhs : Expr} {a b : Val} (hop : op = .div ∨ op = .mod)
      (ha : lhs.value D σ = some a) (hb : rhs.value D σ = some b) (hzero : b.num = 0) :
      DividesByZero D σ (.binary op lhs rhs)
  | left {op : BinaryOp} {lhs rhs : Expr} (h : DividesByZero D σ lhs) :
      DividesByZero D σ (.binary op lhs rhs)
  | right {op : BinaryOp} {lhs rhs : Expr} {a : Val} (ha : lhs.value D σ = some a)
      (h : DividesByZero D σ rhs) : DividesByZero D σ (.binary op lhs rhs)
  | index {x : Token} {index : Expr} {close : Gate} (h : DividesByZero D σ index) :
      DividesByZero D σ (.element x index close)
  | paren {e : Expr} {close : Gate} (h : DividesByZero D σ e) : DividesByZero D σ (.paren e close)
  | negate {e : Expr} (h : DividesByZero D σ e) : DividesByZero D σ (.negate e)

/-- The evaluation of a condition comes to a division by zero. -/
inductive Cond.DividesByZero (D : Decls) (σ : Store) : Cond → Prop
  | compareLeft {lhs rhs : Expr} {rel : Relation} (h : lhs.DividesByZero D σ) :
      DividesByZero D σ (.compare lhs rel rhs)
  | compareRight {lhs rhs : Expr} {rel : Relation} {a : Val} (ha : lhs.value D σ = some a)
      (h : rhs.DividesByZero D σ) : DividesByZero D σ (.compare lhs rel rhs)
  | nonzero {e : Expr} (h : e.DividesByZero D σ) : DividesByZero D σ (.nonzero e)
  | odd {e : Expr} (h : e.DividesByZero D σ) : DividesByZero D σ (.odd e)
  | group {c : Cond} {close : Gate} (h : DividesByZero D σ c) : DividesByZero D σ (.group c close)
  | andLeft {lhs rhs : Cond} (h : DividesByZero D σ lhs) : DividesByZero D σ (.and lhs rhs)
  | andRight {lhs rhs : Cond} (hl : lhs.truth D σ = some true) (h : DividesByZero D σ rhs) :
      DividesByZero D σ (.and lhs rhs)
  | orLeft {lhs rhs : Cond} (h : DividesByZero D σ lhs) : DividesByZero D σ (.or lhs rhs)
  | orRight {lhs rhs : Cond} (hl : lhs.truth D σ = some false) (h : DividesByZero D σ rhs) :
      DividesByZero D σ (.or lhs rhs)

variable {D : Decls} {σ : Store} {sc : Scope} {s s' : Stock}

/-! ### Expressions -/

theorem BinaryOp.apply_eq_none_iff {op : BinaryOp} {limit a b : Nat} :
    op.apply limit a b = none ↔ (op = .div ∨ op = .mod) ∧ b = 0 := by
  cases op <;> simp [BinaryOp.apply]

theorem Expr.DividesByZero.value_eq_none {e : Expr} (h : e.DividesByZero D σ) :
    e.value D σ = none := by
  induction h with
  | here hop ha hb hzero =>
    have hnone : ∀ limit a, BinaryOp.apply _ limit a _ = none := fun limit a =>
      BinaryOp.apply_eq_none_iff.2 ⟨hop, hzero⟩
    simp [Expr.value, ha, hb, hnone]
  | left _ ih => simp [Expr.value, ih]
  | right ha _ ih => simp [Expr.value, ha, ih]
  | index _ ih => simp [Expr.value, ih]
  | paren _ ih => exact ih
  | negate _ ih => simp [Expr.value, ih]

/-- The names in code that was generated are declared, so nothing else leaves an expression without
a value. -/
theorem Expr.Coded.value_eq_none_iff {e : Expr} {lines : List Line} {v : Var}
    (h : e.Coded sc s lines v s') : e.value sc.decls σ = none ↔ e.DividesByZero sc.decls σ := by
  refine ⟨fun hnone => ?_, fun h => h.value_eq_none⟩
  induction h with
  | scalar hx => simp [Expr.value, Scope.decls_scalar? hx] at hnone
  | literal | negLiteral => cases hnone
  | element ha _ _ _ ih =>
    refine .index (ih (Option.eq_none_iff_forall_ne_some.2 fun i hi => ?_))
    simp [Expr.value, Scope.decls_array? ha, hi] at hnone
  | halfNibble hx | half hx => simp [Expr.value, Scope.decls_scalar? hx] at hnone
  | paren _ ih => exact .paren (ih hnone)
  | negate _ _ _ ih => exact .negate (ih (by simpa [Expr.value] using hnone))
  | @binary _ _ _ _ _ _ op lhs rhs _ _ _ _ _ _ _ _ _ _ _ _ _ _ iha ihb =>
    cases ha : lhs.value sc.decls σ with
    | none => exact .left (iha ha)
    | some a =>
      cases hb : rhs.value sc.decls σ with
      | none => exact .right ha (ihb hb)
      | some b =>
        have happly : op.apply (a.width.wider b.width).limit a.num b.num = none := by
          simpa [Expr.value, ha, hb] using hnone
        obtain ⟨hop, hzero⟩ := BinaryOp.apply_eq_none_iff.1 happly
        exact .here hop ha hb hzero

/-! ### Conditions -/

theorem Cond.DividesByZero.truth_eq_none {c : Cond} (h : c.DividesByZero D σ) :
    c.truth D σ = none := by
  induction h with
  | compareLeft h => simp [Cond.truth, h.value_eq_none]
  | compareRight ha h => simp [Cond.truth, ha, h.value_eq_none]
  | nonzero h | odd h => simp [Cond.truth, h.value_eq_none]
  | group _ ih => exact ih
  | andLeft _ ih | orLeft _ ih => simp [Cond.truth, ih]
  | andRight hl _ ih | orRight hl _ ih => simp [Cond.truth, hl, ih]

theorem Cond.Coded.truth_eq_none_iff {chain : Option Chain} {c : Cond} {test : List TestLine}
    (h : c.Coded sc chain s test s') : c.truth sc.decls σ = none ↔ c.DividesByZero sc.decls σ := by
  refine ⟨fun hnone => ?_, fun h => h.truth_eq_none⟩
  induction h with
  | @compare _ _ _ _ lhs rhs _ _ _ _ _ _ _ _ ha hb _ =>
    cases hx : lhs.value sc.decls σ with
    | none => exact .compareLeft (ha.value_eq_none_iff.1 hx)
    | some a =>
      refine .compareRight hx (hb.value_eq_none_iff.1
        (Option.eq_none_iff_forall_ne_some.2 fun b hb => ?_))
      simp [Cond.truth, hx, hb] at hnone
  | nonzero h => exact .nonzero (h.value_eq_none_iff.1 (by simpa [Cond.truth] using hnone))
  | odd h => exact .odd (h.value_eq_none_iff.1 (by simpa [Cond.truth] using hnone))
  | group _ ih => exact .group (ih hnone)
  | @and _ _ _ lhs rhs _ _ _ _ ihl ihr =>
    rcases hl : lhs.truth sc.decls σ with _ | _ | _
    · exact .andLeft (ihl hl)
    · simp [Cond.truth, hl] at hnone
    · exact .andRight hl (ihr (by simpa [Cond.truth, hl] using hnone))
  | @or _ _ _ lhs rhs _ _ _ _ ihl ihr | @next _ _ _ _ lhs rhs _ _ _ _ ihl ihr =>
    rcases hl : lhs.truth sc.decls σ with _ | _ | _
    · exact .orLeft (ihl hl)
    · exact .orRight hl (ihr (by simpa [Cond.truth, hl] using hnone))
    · simp [Cond.truth, hl] at hnone
  | last _ _ ih => exact ih hnone

end NibblePascal
