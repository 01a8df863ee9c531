import NibblePascal.Proofs.Generation.Coded

/-!
# A tree has one code

The stock and the names in scope determine the code of a tree and the stock behind it:
`Expr.Coded.unique`, `Cond.Coded.unique` and `Stmt.Coded.unique`.  The code of a block and the outline
behind it are determined by the outline before it: `Block.Coded.unique`.
-/

namespace NibblePascal

variable {s s' s'' : Stock} {lines lines' : List Line} {a b u v v' : Var} {w : Width}

theorem Stock.Takes.unique (h : s.Takes w v s') (h' : s.Takes w u s'') : v = u ∧ s' = s'' := by
  obtain ⟨memory, ht, rfl⟩ := h
  obtain ⟨memory', ht', rfl⟩ := h'
  obtain ⟨hv, rfl⟩ := Prod.mk.inj (ht.symm.trans ht')
  exact ⟨Except.ok.inj hv, rfl⟩

/-! ### Operands -/

theorem Converted.unique (h : Converted s v w lines u s') (h' : Converted s v w lines' v' s'') :
    lines = lines' ∧ u = v' ∧ s' = s'' := by
  cases h with
  | same hw =>
    cases h' with
    | same => exact ⟨rfl, rfl, rfl⟩
    | resized hne => exact absurd hw hne
  | resized hne ht =>
    cases h' with
    | same hw => exact absurd hw hne
    | resized _ ht' =>
      obtain ⟨rfl, rfl⟩ := ht.unique ht'
      exact ⟨rfl, rfl, rfl⟩

theorem Matched.unique {a₁ b₁ a₂ b₂ : Var} (h : Matched s a b lines a₁ b₁ s')
    (h' : Matched s a b lines' a₂ b₂ s'') : lines = lines' ∧ a₁ = a₂ ∧ b₁ = b₂ ∧ s' = s'' := by
  have hcells : a.width = b.width → a.cells = b.cells := congrArg Width.cells
  cases h with
  | same hw =>
    cases h' with
    | same => exact ⟨rfl, rfl, rfl, rfl⟩
    | left hlt | right hlt => exact absurd (hcells hw) (by omega)
  | left hlt hc =>
    cases h' with
    | same hw => exact absurd (hcells hw) (by omega)
    | left _ hc' =>
      obtain ⟨rfl, rfl, rfl⟩ := hc.unique hc'
      exact ⟨rfl, rfl, rfl, rfl⟩
    | right hlt' => exact absurd hlt (by omega)
  | right hlt hc =>
    cases h' with
    | same hw => exact absurd (hcells hw) (by omega)
    | left hlt' => exact absurd hlt (by omega)
    | right _ hc' =>
      obtain ⟨rfl, rfl, rfl⟩ := hc.unique hc'
      exact ⟨rfl, rfl, rfl, rfl⟩

theorem Operated.unique {op : BinaryOp} (h : Operated s a b v op lines s')
    (h' : Operated s a b v op lines' s'') : lines = lines' ∧ s' = s'' := by
  generalize hop : op = op' at h'
  cases h with
  | combine halu =>
    cases h' with
    | combine halu' =>
      subst hop
      obtain rfl := Option.some.inj (halu.symm.trans halu')
      exact ⟨rfl, rfl⟩
    | multiply =>
      subst hop
      cases halu
    | divide remainder => cases remainder <;> subst hop <;> cases halu
  | multiply hu hw =>
    cases h' with
    | combine halu =>
      subst hop
      cases halu
    | multiply hu' hw' =>
      obtain ⟨rfl, rfl⟩ := hu.unique hu'
      obtain ⟨rfl, rfl⟩ := hw.unique hw'
      exact ⟨rfl, rfl⟩
    | divide remainder => cases remainder <;> cases hop
  | divide remainder hu hw =>
    cases h' with
    | combine halu => cases remainder <;> subst hop <;> cases halu
    | multiply => cases remainder <;> cases hop
    | divide remainder' hu' hw' =>
      obtain rfl : remainder = remainder' := by
        cases remainder <;> cases remainder' <;> first | rfl | cases hop
      obtain ⟨rfl, rfl⟩ := hu.unique hu'
      obtain ⟨rfl, rfl⟩ := hw.unique hw'
      exact ⟨rfl, rfl⟩

/-! ### Trees -/

variable {sc : Scope}

/-- A name stands for one symbol. -/
theorem Scope.scalar_unique {x : String} (h : sc.find? x = some (.scalar v))
    (h' : sc.find? x = some (.scalar v')) : v = v' :=
  Symbol.scalar.inj (Option.some.inj (h.symm.trans h'))

theorem Scope.array_unique {x : String} {arr arr' : ArrayVar}
    (h : sc.find? x = some (.array arr)) (h' : sc.find? x = some (.array arr')) : arr = arr' :=
  Symbol.array.inj (Option.some.inj (h.symm.trans h'))

theorem Expr.Coded.unique {e : Expr} (h : e.Coded sc s lines v s')
    (h' : e.Coded sc s lines' v' s'') : lines = lines' ∧ v = v' ∧ s' = s'' := by
  induction h generalizing lines' v' s'' with
  | scalar hx =>
    cases h' with
    | scalar hx' =>
      obtain rfl := Scope.scalar_unique hx hx'
      exact ⟨rfl, rfl, rfl⟩
  | literal ht =>
    cases h' with
    | literal ht' =>
      obtain ⟨rfl, rfl⟩ := ht.unique ht'
      exact ⟨rfl, rfl, rfl⟩
  | negLiteral ht =>
    cases h' with
    | negLiteral ht' =>
      obtain ⟨rfl, rfl⟩ := ht.unique ht'
      exact ⟨rfl, rfl, rfl⟩
  | element hx _ hr ho ih =>
    cases h' with
    | element hx' hi' hr' ho' =>
      obtain rfl := Scope.array_unique hx hx'
      obtain ⟨rfl, rfl, rfl⟩ := ih hi'
      obtain ⟨rfl, rfl⟩ := hr.unique hr'
      obtain ⟨rfl, rfl⟩ := ho.unique ho'
      exact ⟨rfl, rfl, rfl⟩
  | halfNibble hx hw =>
    cases h' with
    | halfNibble hx' =>
      obtain rfl := Scope.scalar_unique hx hx'
      exact ⟨rfl, rfl, rfl⟩
    | half hx' hw' =>
      obtain rfl := Scope.scalar_unique hx hx'
      rw [hw] at hw'
      cases hw'
  | half hx hw ht =>
    cases h' with
    | halfNibble hx' hw' =>
      obtain rfl := Scope.scalar_unique hx hx'
      rw [hw'] at hw
      cases hw
    | half hx' hw' ht' =>
      obtain rfl := Scope.scalar_unique hx hx'
      obtain rfl := Option.some.inj (hw.symm.trans hw')
      obtain ⟨rfl, rfl⟩ := ht.unique ht'
      exact ⟨rfl, rfl, rfl⟩
  | paren _ ih =>
    cases h' with
    | paren h' => exact ih h'
  | negate _ hc ht ih =>
    cases h' with
    | negate h' hc' ht' =>
      obtain ⟨rfl, rfl, rfl⟩ := ih h'
      obtain ⟨rfl, rfl, rfl⟩ := hc.unique hc'
      obtain ⟨rfl, rfl⟩ := ht.unique ht'
      exact ⟨rfl, rfl, rfl⟩
  | binary _ _ hm ht ho iha ihb =>
    cases h' with
    | binary ha' hb' hm' ht' ho' =>
      obtain ⟨rfl, rfl, rfl⟩ := iha ha'
      obtain ⟨rfl, rfl, rfl⟩ := ihb hb'
      obtain ⟨rfl, rfl, rfl, rfl⟩ := hm.unique hm'
      obtain ⟨rfl, rfl⟩ := ht.unique ht'
      obtain ⟨rfl, rfl⟩ := ho.unique ho'
      exact ⟨rfl, rfl, rfl⟩

theorem Cond.Coded.unique {chain : Option Chain} {c : Cond} {test test' : List TestLine}
    (h : c.Coded sc chain s test s') (h' : c.Coded sc chain s test' s'') :
    test = test' ∧ s' = s'' := by
  induction h generalizing test' s'' with
  | compare ha hb hm =>
    cases h' with
    | compare ha' hb' hm' =>
      obtain ⟨rfl, rfl, rfl⟩ := ha.unique ha'
      obtain ⟨rfl, rfl, rfl⟩ := hb.unique hb'
      obtain ⟨rfl, rfl, rfl, rfl⟩ := hm.unique hm'
      exact ⟨rfl, rfl⟩
  | nonzero h =>
    cases h' with
    | nonzero h' =>
      obtain ⟨rfl, rfl, rfl⟩ := h.unique h'
      exact ⟨rfl, rfl⟩
  | odd h =>
    cases h' with
    | odd h' =>
      obtain ⟨rfl, rfl, rfl⟩ := h.unique h'
      exact ⟨rfl, rfl⟩
  | group _ ih =>
    cases h' with
    | group h' => exact ih h'
  | and _ _ ihl ihr =>
    cases h' with
    | and hl' hr' =>
      obtain ⟨rfl, rfl⟩ := ihl hl'
      obtain ⟨rfl, rfl⟩ := ihr hr'
      exact ⟨rfl, rfl⟩
  | or _ _ ihl ihr =>
    cases h' with
    | or hl' hr' =>
      obtain ⟨rfl, rfl⟩ := ihl hl'
      exact ihr hr'
  | next _ _ ihl ihr =>
    cases h' with
    | next hl' hr' =>
      obtain ⟨rfl, rfl⟩ := ihl hl'
      exact ihr hr'
    | last hc => exact absurd rfl (hc _ _)
  | last hc _ ih =>
    cases h' with
    | next => exact absurd rfl (hc _ _)
    | last _ h' =>
      obtain ⟨rfl, rfl⟩ := ih h'
      exact ⟨rfl, rfl⟩

/-! ### Statements and blocks -/

theorem Stmt.Coded.unique {st : Stmt} {code code' : List Piece} (h : st.Coded sc s code s')
    (h' : st.Coded sc s code' s'') : code = code' ∧ s' = s'' := by
  induction h generalizing code' s'' with
  | skip | nop | call =>
    cases h'
    exact ⟨rfl, rfl⟩
  | seq _ _ ihf ihr =>
    cases h' with
    | seq hf' hr' =>
      obtain ⟨rfl, rfl⟩ := ihf hf'
      obtain ⟨rfl, rfl⟩ := ihr hr'
      exact ⟨rfl, rfl⟩
  | block _ ih =>
    cases h' with
    | block h' => exact ih h'
  | assign hx hv =>
    cases h' with
    | assign hx' hv' =>
      obtain rfl := Scope.scalar_unique hx hx'
      obtain ⟨rfl, rfl, rfl⟩ := hv.unique hv'
      exact ⟨rfl, rfl⟩
  | setElement hx hi hv hc ho =>
    cases h' with
    | setElement hx' hi' hv' hc' ho' =>
      obtain rfl := Scope.array_unique hx hx'
      obtain ⟨rfl, rfl, rfl⟩ := hi.unique hi'
      obtain ⟨rfl, rfl, rfl⟩ := hv.unique hv'
      obtain ⟨rfl, rfl, rfl⟩ := hc.unique hc'
      obtain ⟨rfl, rfl⟩ := ho.unique ho'
      exact ⟨rfl, rfl⟩
  | fillList hx =>
    cases h' with
    | fillList hx' =>
      obtain rfl := Scope.array_unique hx hx'
      exact ⟨rfl, rfl⟩
  | fillText hx hu hc =>
    cases h' with
    | fillText hx' hu' hc' =>
      obtain rfl := Scope.array_unique hx hx'
      obtain rfl := Option.some.inj (hu.symm.trans hu')
      obtain rfl := Except.ok.inj (hc.symm.trans hc')
      exact ⟨rfl, rfl⟩
  | copyArray hx hy =>
    cases h' with
    | copyArray hx' hy' =>
      obtain rfl := Scope.array_unique hx hx'
      obtain rfl := Scope.array_unique hy hy'
      exact ⟨rfl, rfl⟩
  | asm hl =>
    cases h' with
    | asm hl' =>
      refine ⟨congrArg _ ?_, rfl⟩
      exact List.right_unique_forall₂' (fun _ _ _ h h' => Except.ok.inj (h.symm.trans h')) hl hl'
  | ifThen hc _ ih =>
    cases h' with
    | ifThen hc' hy' =>
      obtain ⟨rfl, rfl⟩ := hc.unique hc'
      obtain ⟨rfl, rfl⟩ := ih hy'
      exact ⟨rfl, rfl⟩
  | ifElse hc _ _ ihy ihn =>
    cases h' with
    | ifElse hc' hy' hn' =>
      obtain ⟨rfl, rfl⟩ := hc.unique hc'
      obtain ⟨rfl, rfl⟩ := ihy hy'
      obtain ⟨rfl, rfl⟩ := ihn hn'
      exact ⟨rfl, rfl⟩
  | whileDo hc _ ih =>
    cases h' with
    | whileDo hc' hb' =>
      obtain ⟨rfl, rfl⟩ := hc.unique hc'
      obtain ⟨rfl, rfl⟩ := ih hb'
      exact ⟨rfl, rfl⟩
  | repeatUntil _ hc ih =>
    cases h' with
    | repeatUntil hb' hc' =>
      obtain ⟨rfl, rfl⟩ := ih hb'
      obtain ⟨rfl, rfl⟩ := hc.unique hc'
      exact ⟨rfl, rfl⟩
  | forDo hx hf hl ht _ _ ih =>
    cases h' with
    | forDo hx' hf' hl' ht' _ hb' =>
      obtain rfl := Scope.scalar_unique hx hx'
      obtain ⟨rfl, rfl, rfl⟩ := hf.unique hf'
      obtain ⟨rfl, rfl, rfl⟩ := hl.unique hl'
      obtain ⟨rfl, rfl⟩ := ht.unique ht'
      obtain ⟨rfl, rfl⟩ := ih hb'
      exact ⟨rfl, rfl⟩
  | step hx =>
    cases h' with
    | step hx' =>
      obtain rfl := Scope.scalar_unique hx hx'
      exact ⟨rfl, rfl⟩
  | output hv =>
    cases h' with
    | output hv' =>
      obtain ⟨rfl, rfl, rfl⟩ := hv.unique hv'
      exact ⟨rfl, rfl⟩
  | input hx =>
    cases h' with
    | input hx' =>
      obtain rfl := Scope.scalar_unique hx hx'
      exact ⟨rfl, rfl⟩

theorem Block.Coded.unique {label name : String} {o o' o'' : Outline} {b : Block}
    {code code' : List Piece} (h : Block.Coded label name o b code o')
    (h' : Block.Coded label name o b code' o'') : code = code' ∧ o' = o'' := by
  induction h generalizing code' o'' with
  | code h =>
    cases h' with
    | code h' =>
      obtain ⟨rfl, rfl⟩ := h.unique h'
      exact ⟨rfl, rfl⟩
  | scalar hd hs _ ih =>
    cases h' with
    | scalar hd' hs' hr' =>
      obtain ⟨hv, rfl⟩ := Prod.mk.inj (hd.symm.trans hd')
      obtain rfl := Except.ok.inj hv
      obtain rfl := Option.some.inj (hs.symm.trans hs')
      exact ih hr'
  | array hd hs _ ih =>
    cases h' with
    | array hd' hs' hr' =>
      obtain ⟨ha, rfl⟩ := Prod.mk.inj (hd.symm.trans hd')
      obtain rfl := Except.ok.inj ha
      obtain rfl := Option.some.inj (hs.symm.trans hs')
      exact ih hr'
  | procedure _ hs hd _ _ ihb ihr =>
    cases h' with
    | procedure _ hs' hd' hb' hr' =>
      obtain ⟨hv, rfl⟩ := Prod.mk.inj (hd.symm.trans hd')
      obtain rfl := Except.ok.inj hv
      obtain rfl := Option.some.inj (hs.symm.trans hs')
      obtain ⟨rfl, rfl⟩ := ihb hb'
      obtain ⟨rfl, rfl⟩ := ihr hr'
      exact ⟨rfl, rfl⟩

end NibblePascal
