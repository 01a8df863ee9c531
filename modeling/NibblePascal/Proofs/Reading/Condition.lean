import NibblePascal.Proofs.Except
import NibblePascal.Proofs.Semantics.Grammar

/-!
# Reading expressions and conditions

An expression or a condition that is read without a fault is spelled by the tokens that the
reader took.

* `isWhole`: a tree was read to its end;
* `Context.readsExpr_expr` and `Context.readsCond_cond`.
-/

namespace NibblePascal

/-- Whether an expression was read to its end. -/
def Expr.isWhole : Expr → Bool
  | fault _ => false
  | element _ index close => index.isWhole && close == .passed
  | half _ _ _ close => close == .passed
  | paren e close => e.isWhole && close == .passed
  | negate e => e.isWhole
  | binary _ lhs rhs => lhs.isWhole && rhs.isWhole
  | _ => true

/-- Whether a condition was read to its end. -/
def Cond.isWhole : Cond → Bool
  | fault _ => false
  | compare lhs _ rhs => lhs.isWhole && rhs.isWhole
  | nonzero e | odd e => e.isWhole
  | group c close => c.isWhole && close == .passed
  | and lhs rhs | or lhs rhs => lhs.isWhole && rhs.isWhole

namespace Context

variable {c : Context} {kind : Kind} {t : Token} {ts rest : List Token}

/-! ### Tokens -/

theorem of_expectAny {accepts : Kind → Bool} (h : c.expectAny accepts ts = .ok (t, rest)) :
    accepts t.kind = true ∧ ts = t :: rest := by
  cases ts with
  | nil => cases h
  | cons t' ts =>
    rw [expectAny] at h
    split at h
    · cases h
      exact ⟨‹_›, rfl⟩
    · cases h

theorem of_expect (h : c.expect kind ts = .ok (t, rest)) : t.kind = kind ∧ ts = t :: rest := by
  obtain ⟨hkind, hts⟩ := of_expectAny h
  exact ⟨by simpa using hkind, hts⟩

theorem of_gate (h : c.gate kind ts = (.passed, rest)) : ∃ t, t.kind = kind ∧ ts = t :: rest := by
  unfold gate at h
  split at h
  · rename_i t rest' he
    cases h
    exact ⟨t, of_expect he⟩
  · cases h

theorem of_nextIs (h : nextIs kind ts = true) : ∃ t rest, t.kind = kind ∧ ts = t :: rest := by
  cases ts with
  | nil => cases h
  | cons t ts => exact ⟨t, ts, by simpa [nextIs, nextKind?] using h, rfl⟩

theorem of_accept (h : accept kind ts = some rest) : ∃ t, t.kind = kind ∧ ts = t :: rest := by
  unfold accept at h
  split at h
  · rename_i hnext
    obtain ⟨t, ts', hkind, rfl⟩ := of_nextIs hnext
    cases h
    exact ⟨t, hkind, rfl⟩
  · cases h

theorem nextIs_of_accept (h : accept kind ts = none) : nextIs kind ts = false := by
  unfold accept at h
  split at h
  · cases h
  · exact Bool.eq_false_iff.2 ‹_›

theorem of_nextOp {op? : Kind → Option BinaryOp} {op : BinaryOp} (h : nextOp? op? ts = some op) :
    ∃ t rest, op? t.kind = some op ∧ ts = t :: rest := by
  cases ts with
  | nil => cases h
  | cons t ts => exact ⟨t, ts, h, rfl⟩

theorem of_productOp {op : BinaryOp} (h : productOp? kind = some op) :
    op.rank = .product ∧ kind = op.sign := by
  unfold productOp? at h
  split at h <;> first | cases h; exact ⟨rfl, rfl⟩ | cases h

theorem of_sumOp {op : BinaryOp} (h : sumOp? kind = some op) : op.rank = .sum ∧ kind = op.sign := by
  unfold sumOp? at h
  split at h <;> first | cases h; exact ⟨rfl, rfl⟩ | cases h

theorem of_relation {rel : Relation} (h : relation? kind = some rel) : kind = rel.sign := by
  unfold relation? at h
  split at h <;> first | cases h; rfl | cases h

/-! ### Expressions -/

/-- A reader of expressions of a rank follows the grammar. -/
def ReadsExpr (arrays : List String) (rank : Rank) (r : Reader Expr) : Prop :=
  ∀ ⦃ts e rest⦄, r ts = (e, rest) → e.isWhole = true →
    ∃ us, ts = us ++ rest ∧ e.Spelled arrays rank us

theorem ReadsExpr.factor {sub : Reader Expr} (h : ReadsExpr c.arrays .sum sub) :
    ReadsExpr c.arrays .atom (c.factor sub) := by
  intro ts e rest hread hwhole
  cases ts with
  | nil => cases hread; cases hwhole
  | cons t ts =>
    rw [Context.factor] at hread
    split at hread
    case h_1 hkind =>
      split at hread
      · rename_i harray
        split at hread
        · cases hread; cases hwhole
        · rename_i l ts₁ hnext
          obtain ⟨hl, rfl⟩ := of_expect hnext
          rcases hsub : sub ts₁ with ⟨index, ts₂⟩
          rcases hgate : c.gate .rbracket ts₂ with ⟨close, ts₃⟩
          simp only [hsub, hgate] at hread
          cases hread
          obtain ⟨hindex, hclose⟩ := Bool.and_eq_true_iff.1 hwhole
          obtain rfl := eq_of_beq hclose
          obtain ⟨us, rfl, hus⟩ := h hsub hindex
          obtain ⟨r, hr, rfl⟩ := of_gate hgate
          exact ⟨t :: l :: (us ++ [r]), by simp, .element hkind (by simpa using harray) hl hus hr⟩
      · rename_i hscalar
        cases hread
        exact ⟨[t], rfl, .scalar hkind (by simpa using hscalar)⟩
    case h_2 hkind =>
      split at hread
      · rename_i hvalue
        cases hread
        exact ⟨[t], rfl, .literal hkind hvalue⟩
      · cases hread; cases hwhole
    case h_3 hkind =>
      rcases hsub : sub ts with ⟨e₁, ts₁⟩
      rcases hgate : c.gate .rparen ts₁ with ⟨close, ts₂⟩
      simp only [hsub, hgate] at hread
      cases hread
      obtain ⟨he, hclose⟩ := Bool.and_eq_true_iff.1 hwhole
      obtain rfl := eq_of_beq hclose
      obtain ⟨us, rfl, hus⟩ := h hsub he
      obtain ⟨r, hr, rfl⟩ := of_gate hgate
      exact ⟨t :: (us ++ [r]), by simp, .paren hkind hus hr⟩
    case h_6 => cases hread; cases hwhole
    all_goals
      rename_i hkind
      split at hread
      · cases hread; cases hwhole
      · rename_i l ts₁ hnext
        obtain ⟨hl, rfl⟩ := of_expect hnext
        split at hread
        · cases hread; cases hwhole
        · rename_i x ts₂ hname
          obtain ⟨hx, rfl⟩ := of_expect hname
          rcases hgate : c.gate .rparen ts₂ with ⟨close, ts₃⟩
          simp only [hgate] at hread
          cases hread
          obtain rfl := eq_of_beq hwhole
          obtain ⟨r, hr, rfl⟩ := of_gate hgate
          exact ⟨[t, l, x, r], rfl, .half _ (by simp [hkind]) hl hx hr⟩

/-- A chain of operators goes on from its first operand. -/
theorem ReadsExpr.chain {arrays : List String} {op? : Kind → Option BinaryOp}
    {operand : Reader Expr} {low high : Rank} (h : ReadsExpr arrays low operand)
    (hjoin : ∀ {t : Token} {us us' : List Token} {op : BinaryOp} {a b : Expr},
      a.Spelled arrays high us → op? t.kind = some op → b.Spelled arrays low us' →
      (Expr.binary op a b).Spelled arrays high (us ++ t :: us'))
    {count : Nat} {lhs e : Expr} {start ts rest : List Token}
    (hlhs : lhs.isWhole = true → ∃ us, start = us ++ ts ∧ lhs.Spelled arrays high us)
    (hread : Context.chain op? operand count lhs ts = (e, rest)) (hwhole : e.isWhole = true) :
    ∃ us, start = us ++ rest ∧ e.Spelled arrays high us := by
  induction count generalizing lhs ts with
  | zero =>
    cases hread
    exact hlhs hwhole
  | succ count ih =>
    rw [Context.chain] at hread
    split at hread
    · cases hread
      exact hlhs hwhole
    · rename_i op hnext
      obtain ⟨t, ts₁, hop, rfl⟩ := of_nextOp hnext
      rcases hsub : operand ts₁ with ⟨rhs, ts₂⟩
      simp only [List.tail_cons, hsub] at hread
      refine ih (fun hboth => ?_) hread
      obtain ⟨hl, hr⟩ := Bool.and_eq_true_iff.1 hboth
      obtain ⟨us, rfl, hus⟩ := hlhs hl
      obtain ⟨us', rfl, hus'⟩ := h hsub hr
      exact ⟨us ++ t :: us', by simp, hjoin hus hop hus'⟩

theorem ReadsExpr.term {sub : Reader Expr} (h : ReadsExpr c.arrays .sum sub) :
    ReadsExpr c.arrays .product (c.term sub) := by
  intro ts e rest hread hwhole
  rcases hfirst : c.factor sub ts with ⟨first, ts₁⟩
  simp only [Context.term, hfirst] at hread
  refine h.factor.chain (fun ha hop hb => ?_) (fun hw => ?_) hread hwhole
  · exact .multiply ha (of_productOp hop).1 (of_productOp hop).2 hb
  · obtain ⟨us, hus, hs⟩ := h.factor hfirst hw
    exact ⟨us, hus, .factor hs⟩

theorem ReadsExpr.negated {sub : Reader Expr} (h : ReadsExpr c.arrays .sum sub) {sign : Token}
    (hsign : sign.kind = .minus) {e : Expr} (hread : c.negated sub ts = (e, rest))
    (hwhole : e.isWhole = true) : ∃ us, sign :: ts = us ++ rest ∧ e.Spelled c.arrays .sum us := by
  have hproduct : ∀ {ts}, (Expr.negate (c.term sub ts).1, (c.term sub ts).2) = (e, rest) →
      ∃ us, sign :: ts = us ++ rest ∧ e.Spelled c.arrays .sum us := by
    intro ts hread
    rcases hterm : c.term sub ts with ⟨e₁, ts₁⟩
    rw [hterm] at hread
    cases hread
    obtain ⟨us, rfl, hus⟩ := h.term hterm hwhole
    exact ⟨sign :: us, rfl, .negative hsign hus⟩
  cases ts with
  | nil => exact hproduct hread
  | cons t ts₁ =>
    unfold Context.negated at hread
    extract_lets product at hread
    dsimp only at hread
    split at hread
    · rename_i hkind
      split at hread
      · cases hread; cases hwhole
      · rename_i value hvalue
        split at hread
        · cases hread; cases hwhole
        · rename_i hsmall
          split at hread
          · cases hread
            exact ⟨[sign, t], rfl, .negLiteral hsign (eq_of_beq hkind) hvalue (Nat.not_lt.1 hsmall)⟩
          · exact hproduct hread
    · exact hproduct hread

theorem ReadsExpr.sum {sub : Reader Expr} (h : ReadsExpr c.arrays .sum sub) :
    ReadsExpr c.arrays .sum (c.sum sub) := by
  intro ts e rest hread hwhole
  have hjoin : ∀ {t : Token} {us us' : List Token} {op : BinaryOp} {a b : Expr},
      a.Spelled c.arrays .sum us → sumOp? t.kind = some op → b.Spelled c.arrays .product us' →
      (Expr.binary op a b).Spelled c.arrays .sum (us ++ t :: us') :=
    fun ha hop hb => .add ha (of_sumOp hop).1 (of_sumOp hop).2 hb
  unfold Context.sum at hread
  split at hread
  case _ first ts₁ hfirst =>
    refine h.term.chain hjoin (fun hw => ?_) hread hwhole
    split at hfirst
    · rename_i hnext
      obtain ⟨t, ts₂, hop, rfl⟩ := of_nextOp hnext
      exact h.negated (of_sumOp hop).2 hfirst hw
    · rename_i op hne hnext
      obtain ⟨t, ts₂, hop, rfl⟩ := of_nextOp hnext
      obtain ⟨us, rfl, hus⟩ := h.term hfirst hw
      have hplus : t.kind = .plus := by
        obtain ⟨hrank, hsign⟩ := of_sumOp hop
        cases op <;> first | exact hsign | exact absurd rfl hne | cases hrank
      exact ⟨t :: us, rfl, .positive hplus hus⟩
    · obtain ⟨us, rfl, hus⟩ := h.term hfirst hw
      exact ⟨us, rfl, .term hus⟩

theorem readsExpr_exprWithin (c : Context) (depth : Nat) :
    ReadsExpr c.arrays .sum (c.exprWithin depth) := by
  induction depth with
  | zero =>
    intro ts e rest hread hwhole
    cases hread; cases hwhole
  | succ depth ih => exact ih.sum

theorem readsExpr_expr (c : Context) : ReadsExpr c.arrays .sum c.expr :=
  fun ts _ _ hread => readsExpr_exprWithin c ts.length hread

/-! ### Conditions -/

/-- A reader of conditions of a rank follows the grammar. -/
def ReadsCond (arrays : List String) (rank : Rank) (r : Reader Cond) : Prop :=
  ∀ ⦃ts d rest⦄, r ts = (d, rest) → d.isWhole = true →
    ∃ us, ts = us ++ rest ∧ d.Spelled arrays rank us

theorem of_loneZero (h : loneZero ts = true) :
    ∃ t rest, ts = t :: rest ∧ t.kind = .number ∧ t.numberValue = .ok 0 := by
  cases ts with
  | nil => cases h
  | cons t rest =>
    simp only [loneZero, Bool.and_eq_true] at h
    obtain ⟨⟨⟨hkind, hzero⟩, -⟩, -⟩ := h
    refine ⟨t, rest, rfl, eq_of_beq hkind, ?_⟩
    split at hzero
    · assumption
    · cases hzero

theorem readsCond_comparison (c : Context) : ReadsCond c.arrays .atom c.comparison := by
  intro ts d rest hread hwhole
  rcases hlhs : c.expr ts with ⟨lhs, ts₁⟩
  simp only [comparison, hlhs] at hread
  split at hread
  · cases hread
    cases (Bool.and_eq_true_iff.1 hwhole).2
  · rename_i rel hrel
    cases ts₁ with
    | nil => cases hrel
    | cons t ts₂ =>
      have hsign : t.kind = rel.sign := of_relation hrel
      rw [List.tail_cons] at hread
      split at hread
      · rename_i hzero
        obtain ⟨hkind, hlone⟩ := Bool.and_eq_true_iff.1 hzero
        obtain ⟨z, ts₃, rfl, hz, hv⟩ := of_loneZero hlone
        cases hread
        obtain ⟨us, rfl, hus⟩ := readsExpr_expr c hlhs hwhole
        refine ⟨us ++ [t, z], by simp, .nonzero hus ?_ hz hv⟩
        obtain hgt | hne := Bool.or_eq_true_iff.1 hkind
        · exact .inl (by rw [hsign, eq_of_beq hgt, Relation.sign])
        · exact .inr (by rw [hsign, eq_of_beq hne, Relation.sign])
      · rcases hrhs : c.expr ts₂ with ⟨rhs, ts₃⟩
        simp only [hrhs] at hread
        cases hread
        obtain ⟨hl, hr⟩ := Bool.and_eq_true_iff.1 hwhole
        obtain ⟨us, rfl, hus⟩ := readsExpr_expr c hlhs hl
        obtain ⟨us', rfl, hus'⟩ := readsExpr_expr c hrhs hr
        exact ⟨us ++ t :: us', by simp, .compare hus hsign hus'⟩

theorem ReadsCond.simple {sub : Reader Cond} (h : ReadsCond c.arrays .sum sub) :
    ReadsCond c.arrays .atom (c.simple sub) := by
  intro ts d rest hread hwhole
  unfold Context.simple at hread
  split at hread
  · rename_i ts₁ hopen
    obtain ⟨l, hl, rfl⟩ := of_accept hopen
    rcases hsub : sub ts₁ with ⟨inner, ts₂⟩
    rcases hgate : c.gate .rcurly ts₂ with ⟨close, ts₃⟩
    simp only [hsub, hgate] at hread
    cases hread
    obtain ⟨hinner, hclose⟩ := Bool.and_eq_true_iff.1 hwhole
    obtain rfl := eq_of_beq hclose
    obtain ⟨us, rfl, hus⟩ := h hsub hinner
    obtain ⟨r, hr, rfl⟩ := of_gate hgate
    exact ⟨l :: (us ++ [r]), by simp, .group hl hus hr⟩
  · split at hread
    · rename_i ts₁ hodd
      obtain ⟨t, ht, rfl⟩ := of_accept hodd
      rcases he : c.expr ts₁ with ⟨e, ts₂⟩
      simp only [he] at hread
      cases hread
      obtain ⟨us, rfl, hus⟩ := readsExpr_expr c he hwhole
      exact ⟨t :: us, rfl, .odd ht hus⟩
    · exact readsCond_comparison c hread hwhole

/-- Operands joined by a word. -/
theorem ReadsCond.joined {arrays : List String} {operand : Reader Cond} {low high : Rank}
    {word : Kind} {join : Cond → Cond → Cond} (h : ReadsCond arrays low operand)
    (hwholes : ∀ a b, (join a b).isWhole = (a.isWhole && b.isWhole))
    (hlift : ∀ {us a}, Cond.Spelled arrays low us a → a.Spelled arrays high us)
    (hjoin : ∀ {t : Token} {us us' a b}, Cond.Spelled arrays low us a → t.kind = word →
      Cond.Spelled arrays high us' b → (join a b).Spelled arrays high (us ++ t :: us'))
    (count : Nat) : ReadsCond arrays high (Context.joined word join operand count) := by
  induction count with
  | zero =>
    intro ts d rest hread hwhole
    obtain ⟨us, hus, hs⟩ := h hread hwhole
    exact ⟨us, hus, hlift hs⟩
  | succ count ih =>
    intro ts d rest hread hwhole
    rcases hlhs : operand ts with ⟨lhs, ts₁⟩
    simp only [Context.joined, hlhs] at hread
    split at hread
    · cases hread
      obtain ⟨us, hus, hs⟩ := h hlhs hwhole
      exact ⟨us, hus, hlift hs⟩
    · rename_i ts₂ hword
      obtain ⟨t, ht, rfl⟩ := of_accept hword
      rcases hrhs : Context.joined word join operand count ts₂ with ⟨rhs, ts₃⟩
      simp only [hrhs] at hread
      cases hread
      obtain ⟨hl, hr⟩ := Bool.and_eq_true_iff.1 ((hwholes ..).symm.trans hwhole)
      obtain ⟨us, rfl, hus⟩ := h hlhs hl
      obtain ⟨us', rfl, hus'⟩ := ih hrhs hr
      exact ⟨us ++ t :: us', by simp, hjoin hus ht hus'⟩

theorem readsCond_condWithin (c : Context) (depth : Nat) :
    ReadsCond c.arrays .sum (c.condWithin depth) := by
  induction depth with
  | zero =>
    intro ts d rest hread hwhole
    cases hread; cases hwhole
  | succ depth ih =>
    have hconj : ReadsCond c.arrays .product (c.conjunction (c.condWithin depth)) := 
      fun ts _ _ hread => ih.simple.joined (fun _ _ => rfl) .simple .and ts.length hread
    exact fun ts _ _ hread => hconj.joined (fun _ _ => rfl) .conjunction .or ts.length hread

theorem readsCond_cond (c : Context) : ReadsCond c.arrays .sum c.cond :=
  fun ts _ _ hread => readsCond_condWithin c ts.length hread

end Context

end NibblePascal
