import NibblePascal.Proofs.Generation.Coded

/-!
# Bookkeeping of variables in use

The code of a tree takes temporaries, has them in use and gives them back.  A `Ledger` is any
relation between the stock and the list of variables in use that follows this traffic.  What it
says before the code of a tree it says after it, with the result of an expression as one more
variable in use: `Expr.Coded.books`, `Cond.Coded.books` and `Stmt.Coded.books`.

Facts about the stock alone are ledgers that do not look at the list, and the code of a tree
upholds them: `Expr.Coded.upholds` and so on.
-/

namespace NibblePascal

/-- A relation between the stock and the variables in use that follows the generated code. -/
structure Ledger (sc : Scope) (W : Stock → List Var → Prop) : Prop where
  skip : ∀ {s : Stock} {vs : List Var} (n : Nat), W s vs → W (s.skip n) vs
  locate : ∀ {s : Stock} {vs : List Var} (pos : Pos), W s vs → W (s.locate pos) vs
  perm : ∀ {s : Stock} {vs us : List Var}, vs.Perm us → W s vs → W s us
  take : ∀ {s s' : Stock} {vs : List Var} {w : Width} {v : Var}, s.Takes w v s' → W s vs →
    W s' (v :: vs)
  release : ∀ {s : Stock} {vs : List Var} {v : Var}, W s (v :: vs) → W (s.release v) vs
  /-- A declared scalar may be used at any time. -/
  declared : ∀ {s : Stock} {vs : List Var} {x : String} {v : Var},
    sc.find? x = some (.scalar v) → W s vs → W s (v :: vs)

variable {sc : Scope} {W : Stock → List Var → Prop} {s s' : Stock} {vs : List Var}

theorem Ledger.swap (hW : Ledger sc W) {u v : Var} (h : W s (u :: v :: vs)) :
    W s (v :: u :: vs) := hW.perm (.swap ..) h

/-- The number of labels only grows. -/
theorem Ledger.labels (sc : Scope) (n : Nat) : Ledger sc fun s _ => n ≤ s.labels where
  skip := fun _ h => Nat.le_add_right_of_le h
  locate := fun _ h => h
  perm := fun _ h => h
  take := fun ht h => ht.labels_eq ▸ h
  release := fun h => h
  declared := fun _ h => h

/-! ### Operands -/

theorem Converted.books {v v' : Var} {w : Width} {lines : List Line} (h : Converted s v w lines v' s')
    (hW : Ledger sc W) (hw : W s (v :: vs)) : W s' (v' :: vs) := by
  cases h with
  | same => exact hw
  | resized _ ht => exact hW.release (hW.swap (hW.take ht hw))

theorem Matched.books {a b a' b' : Var} {lines : List Line} (h : Matched s a b lines a' b' s')
    (hW : Ledger sc W) (hw : W s (b :: a :: vs)) : W s' (b' :: a' :: vs) := by
  cases h with
  | same => exact hw
  | left _ hc => exact hW.swap (hc.books hW (hW.swap hw))
  | right _ hc => exact hc.books hW hw

theorem Operated.books {a b res : Var} {op : BinaryOp} {lines : List Line}
    (h : Operated s a b res op lines s') (hW : Ledger sc W) (hw : W s vs) : W s' vs := by
  cases h with
  | combine => exact hw
  | multiply hu hw' =>
    exact hW.release (hW.release (hW.swap (hW.skip _ (hW.take hw' (hW.take hu hw)))))
  | divide _ hu hw' =>
    exact hW.release (hW.release (hW.swap (hW.skip _ (hW.take hw' (hW.take hu hw)))))

/-! ### Trees -/

/-- The result of an expression is one more variable in use. -/
theorem Expr.Coded.books {e : Expr} {lines : List Line} {v : Var} (h : Coded sc s e lines v s')
    (hW : Ledger sc W) (hw : W s vs) : W s' (v :: vs) := by
  induction h generalizing vs with
  | scalar hx => exact hW.declared hx (hW.locate _ hw)
  | literal ht => exact hW.take ht (hW.locate _ hw)
  | negLiteral ht => exact hW.take ht (hW.locate _ hw)
  | element _ _ htr hto ihi =>
    have hw₁ := hW.take hto (hW.take htr (ihi (hW.locate _ hw)))
    exact hW.release (hW.swap (hW.release hw₁))
  | halfNibble hx _ => exact hW.declared hx (hW.locate _ hw)
  | half _ _ ht => exact hW.take ht (hW.locate _ hw)
  | paren _ ih => exact ih hw
  | negate _ hc ht ih => exact hW.release (hW.swap (hW.take ht (hc.books hW (ih hw))))
  | @binary s s₁ s₂ s₃ s₄ s₅ op lhs rhs _ _ _ _ a b a' b' res _ _ hm ht ho iha ihb =>
    have hw₅ := ho.books hW (hW.take ht (hm.books hW (ihb (iha hw))))
    have hperm : (res :: b' :: a' :: vs).Perm (a' :: b' :: res :: vs) :=
      ((List.Perm.swap ..).trans (.cons _ (.swap ..))).trans (.swap ..)
    exact hW.release (hW.release (hW.perm hperm hw₅))

/-- A condition leaves in use what was in use before. -/
theorem Cond.Coded.books {chain : Option Chain} {c : Cond} {test : List TestLine}
    (h : Coded sc chain s c test s') (hW : Ledger sc W) (hw : W s vs) : W s' vs := by
  induction h with
  | compare ha hb hm =>
    have hw₃ := hm.books hW (hb.books hW (ha.books hW hw))
    exact hW.release (hW.release (hW.swap (hW.skip _ hw₃)))
  | nonzero h => exact hW.release (h.books hW hw)
  | odd h => exact hW.release (h.books hW hw)
  | group _ ih => exact ih hw
  | and _ _ ihl ihr => exact ihr (hW.skip _ (ihl hw))
  | or _ _ ihl ihr => exact ihr (hW.skip _ (ihl hw))
  | next _ _ ihl ihr => exact ihr (ihl (hW.skip _ hw))
  | last _ _ ih => exact ih (hW.skip _ hw)

/-- In the body of a counted loop its limit is in use. -/
theorem Ledger.limit (hW : Ledger sc W) {s₁ s₂ s₃ : Stock} {first last : Expr}
    {v start bound limit : Var} {lines₁ lines₂ : List Line}
    (hf : Expr.Coded sc s first lines₁ start s₁)
    (hl : Expr.Coded sc (s₁.release start) last lines₂ bound s₂)
    (ht : s₂.Takes v.width limit s₃) (hw : W s vs) : W (s₃.release bound) (limit :: vs) :=
  hW.release (hW.swap (hW.take ht (hl.books hW (hW.release (hf.books hW hw)))))

/-- A statement leaves in use what was in use before. -/
theorem Stmt.Coded.books {st : Stmt} {code : List Piece} (h : Coded sc s st code s')
    (hW : Ledger sc W) (hw : W s vs) : W s' vs := by
  induction h generalizing vs with
  | skip => exact hw
  | seq _ _ ihf ihr => exact ihr (ihf hw)
  | nop => exact hw
  | block _ ih => exact ih hw
  | assign _ hv => exact hW.release (hv.books hW hw)
  | setElement _ hi hv hc ho =>
    have hw₄ := hW.take ho (hc.books hW (hv.books hW (hi.books hW hw)))
    exact hW.release (hW.release (hW.swap (hW.release hw₄)))
  | fillList => exact hw
  | fillText => exact hw
  | copyArray => exact hw
  | call => exact hW.skip 1 hw
  | asm => exact hw
  | ifThen hc _ ih => exact ih (hc.books hW (hW.skip 3 hw))
  | ifElse hc _ _ ihy ihn => exact ihn (ihy (hc.books hW (hW.skip 3 hw)))
  | whileDo hc _ ih => exact ih (hc.books hW (hW.skip 3 hw))
  | repeatUntil _ hc ih => exact hc.books hW (ih (hW.skip 2 hw))
  | forDo _ hf hl ht _ _ ih =>
    exact hW.release (hW.skip _ (ih (hW.skip _ (hW.skip 4 (hW.limit hf hl ht hw)))))
  | step => exact hw
  | output hv => exact hW.release (hv.books hW hw)
  | input => exact hw

/-! ### Facts about the stock alone -/

section Upholds

variable {P : Stock → Prop} {lines : List Line} {a b a' b' v : Var} {w : Width}

theorem Stock.Takes.upholds (h : s.Takes w v s') (hP : Ledger sc fun s _ => P s) (hp : P s) :
    P s' :=
  @Ledger.take sc (fun s _ => P s) hP s s' [] w v h hp

theorem Converted.upholds (h : Converted s v w lines a s') (hP : Ledger sc fun s _ => P s)
    (hp : P s) : P s' :=
  @Converted.books sc (fun s _ => P s) s s' [] v a w lines h hP hp

theorem Matched.upholds (h : Matched s a b lines a' b' s') (hP : Ledger sc fun s _ => P s)
    (hp : P s) : P s' :=
  @Matched.books sc (fun s _ => P s) s s' [] a b a' b' lines h hP hp

theorem Operated.upholds {op : BinaryOp} (h : Operated s a b v op lines s')
    (hP : Ledger sc fun s _ => P s) (hp : P s) : P s' :=
  @Operated.books sc (fun s _ => P s) s s' [] a b v op lines h hP hp

theorem Expr.Coded.upholds {e : Expr} (h : Expr.Coded sc s e lines v s')
    (hP : Ledger sc fun s _ => P s) (hp : P s) : P s' :=
  @Expr.Coded.books sc (fun s _ => P s) s s' [] e lines v h hP hp

theorem Cond.Coded.upholds {chain : Option Chain} {c : Cond} {test : List TestLine}
    (h : Cond.Coded sc chain s c test s') (hP : Ledger sc fun s _ => P s) (hp : P s) : P s' :=
  @Cond.Coded.books sc (fun s _ => P s) s s' [] chain c test h hP hp

theorem Stmt.Coded.upholds {st : Stmt} {code : List Piece} (h : Stmt.Coded sc s st code s')
    (hP : Ledger sc fun s _ => P s) (hp : P s) : P s' :=
  @Stmt.Coded.books sc (fun s _ => P s) s s' [] st code h hP hp

/-- What holds of the stock holds in the body of a counted loop. -/
theorem Ledger.upholds_limit (hP : Ledger sc fun s _ => P s) {s₁ s₂ s₃ : Stock} {first last : Expr}
    {start bound limit : Var} {lines₁ lines₂ : List Line}
    (hf : Expr.Coded sc s first lines₁ start s₁)
    (hl : Expr.Coded sc (s₁.release start) last lines₂ bound s₂)
    (ht : s₂.Takes v.width limit s₃) (hp : P s) : P (s₃.release bound) :=
  @Ledger.limit sc (fun s _ => P s) s [] hP s₁ s₂ s₃ first last v start bound limit lines₁ lines₂
    hf hl ht hp

end Upholds

end NibblePascal
