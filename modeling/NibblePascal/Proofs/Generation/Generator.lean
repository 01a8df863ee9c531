import NibblePascal.Proofs.Except
import NibblePascal.Proofs.Generation.Coded

/-!
# The generator meets the relations

A computation that generates code and succeeds appends lines and moves the stock on.  For each
of them there is a lemma that says which lines, and the lemmas compose along `bind`:
`Expr.coded_of_generate`, `Cond.coded_of_generate`, `Stmt.coded_of_generate` and
`Block.coded_of_generate` are the outcome.
-/

namespace NibblePascal

namespace Width

theorem cells_lt_of_not_isBelow {v w : Width} (h : v ≠ w)
    (hb : v.isBelow w = false) :
    w.cells < v.cells := by
  cases v <;> cases w <;> simp_all [Width.isBelow, Width.cells]

end Width

namespace Generator

/-- What code is made from. -/
def stock (g : Generator) : Stock := ⟨g.memory, g.labels⟩

/-- The generator with more lines, at another stock. -/
def grow (g : Generator) (lines : List Line) (s : Stock) : Generator :=
  { g with code := g.code.append lines, memory := s.memory, labels := s.labels }

variable (g : Generator) (lines : List Line) (s : Stock)

@[simp] theorem scope_grow : (g.grow lines s).scope = g.scope := rfl

@[simp] theorem stock_grow : (g.grow lines s).stock = s := rfl

@[simp] theorem code_grow : (g.grow lines s).code = g.code.append lines := rfl

@[simp] theorem procedures_grow : (g.grow lines s).procedures = g.procedures := rfl

@[simp] theorem grow_grow (lines' : List Line) (s' : Stock) :
    (g.grow lines s).grow lines' s' = g.grow (lines ++ lines') s' := by
  simp [grow, Sequence.append_append]

@[simp] theorem grow_stock : g.grow [] g.stock = g := rfl

theorem lines_grow : (g.grow lines s).code.lines = g.code.lines ++ lines := Sequence.lines_append ..

end Generator

namespace Gen

variable {α β : Type} {g g' : Generator}

/-! ### Steps that have succeeded -/

theorem of_bind {x : Gen α} {f : α → Gen β} {b : β} (h : (x >>= f) g = .ok b g') :
    ∃ a g₁, x g = .ok a g₁ ∧ f a g₁ = .ok b g' := by
  simp only [bind, EStateM.bind] at h
  split at h
  · exact ⟨_, _, ‹_›, h⟩
  · cases h

/-- What a successful first step is known to do, and the rest after it. -/
theorem after {x : Gen α} {f : α → Gen β} {b : β} {P : α → Generator → Prop}
    (hx : ∀ {a g₁}, x g = .ok a g₁ → P a g₁) (h : (x >>= f) g = .ok b g') :
    ∃ a g₁, P a g₁ ∧ f a g₁ = .ok b g' := by
  obtain ⟨a, g₁, ha, h⟩ := of_bind h
  exact ⟨a, g₁, hx ha, h⟩

theorem of_pure {a b : α} (h : (pure a : Gen α) g = .ok b g') : a = b ∧ g = g' := by
  cases h
  exact ⟨rfl, rfl⟩

theorem not_fail {why : Fault} {b : α} (h : (fail why : Gen α) g = .ok b g') : False := by
  cases h

theorem of_emit {lines : List Line} {u : Unit} (h : emit lines g = .ok u g') :
    g' = g.grow lines g.stock := by
  cases h
  rfl

theorem of_place {label : String} {u : Unit} (h : place label g = .ok u g') :
    g' = g.grow [.label label] g.stock := of_emit h

theorem of_newLabels {count n : Nat} (h : newLabels count g = .ok n g') :
    n = g.stock.labels ∧ g' = g.grow [] (g.stock.skip count) := by
  cases h
  exact ⟨rfl, rfl⟩

theorem of_newLabel {l : String} (h : newLabel g = .ok l g') :
    l = Code.labelName g.stock.labels ∧ g' = g.grow [] (g.stock.skip 1) := by
  obtain ⟨n, _, ⟨rfl, rfl⟩, h⟩ := after of_newLabels h
  obtain ⟨rfl, rfl⟩ := of_pure h
  exact ⟨rfl, rfl⟩

theorem of_locate {pos : Pos} {u : Unit} (h : locate pos g = .ok u g') :
    g' = g.grow [] (g.stock.locate pos) := by
  cases h
  rfl

theorem of_allocate {f : Allocator → Except Fault α × Allocator} {a : α}
    (h : allocate f g = .ok a g') :
    ∃ memory, f g.memory = (.ok a, memory) ∧ g' = { g with memory := memory } := by
  obtain ⟨_, _, hget, h⟩ := of_bind h
  cases hget
  cases hf : f g.memory with
  | mk result memory =>
    simp only [hf] at h
    obtain ⟨_, _, hset, h⟩ := of_bind h
    cases hset
    cases result with
    | error why =>
      dsimp only at h
      split at h <;> cases h
    | ok value =>
      obtain ⟨rfl, rfl⟩ := of_pure h
      exact ⟨memory, rfl, rfl⟩

theorem of_temp {w : Width} {v : Var} (h : temp w g = .ok v g') :
    ∃ s', g.stock.Takes w v s' ∧ g' = g.grow [] s' := by
  obtain ⟨memory, hm, rfl⟩ := of_allocate h
  exact ⟨_, ⟨memory, hm, rfl⟩, rfl⟩

theorem of_recycle {v : Var} {u : Unit} (h : recycle v g = .ok u g') :
    g' = g.grow [] (g.stock.release v) := by
  cases h
  rfl

theorem of_free {v : Var} {u : Unit} (h : free v g = .ok u g') :
    g' = g.grow (freeLines v) (g.stock.release v) := by
  cases ht : v.temp with
  | false =>
    simp only [free, ht] at h
    obtain ⟨-, rfl⟩ := of_pure h
    simp only [freeLines, ht, Stock.release, Allocator.release_of_not_temp _ ht]
    rfl
  | true =>
    simp only [free, ht, if_true] at h
    obtain ⟨_, _, rfl, h⟩ := after of_recycle h
    obtain rfl := of_emit h
    simp [freeLines, ht]

theorem of_pass {gate : Gate} {u : Unit} (h : pass gate g = .ok u g') :
    gate = .passed ∧ g = g' := by
  cases gate with
  | passed => exact ⟨rfl, (of_pure h).2⟩
  | blocked why => exact (not_fail h).elim

theorem of_symbol {x : Token} {symbol : Symbol} (h : Gen.symbol x g = .ok symbol g') :
    g.scope.find? x.text = some symbol ∧ g = g' := by
  obtain ⟨_, _, hget, h⟩ := of_bind h
  cases hget
  cases hf : g.scope.find? x.text with
  | none => simp only [hf] at h; exact (not_fail h).elim
  | some found =>
    simp only [hf] at h
    obtain ⟨rfl, rfl⟩ := of_pure h
    exact ⟨rfl, rfl⟩

theorem of_scalar {construct : String} {x : Token} {v : Var}
    (h : scalar construct x g = .ok v g') :
    g.scope.find? x.text = some (.scalar v) ∧ g = g' := by
  obtain ⟨found, _, ⟨hf, rfl⟩, h⟩ := after of_symbol h
  cases found with
  | scalar v =>
    obtain ⟨rfl, rfl⟩ := of_pure h
    exact ⟨hf, rfl⟩
  | array a => exact (not_fail h).elim

theorem of_array {x : Token} {a : ArrayVar} (h : Gen.array x g = .ok a g') :
    g.scope.find? x.text = some (.array a) ∧ g = g' := by
  obtain ⟨found, _, ⟨hf, rfl⟩, h⟩ := after of_symbol h
  cases found with
  | array a =>
    obtain ⟨rfl, rfl⟩ := of_pure h
    exact ⟨hf, rfl⟩
  | scalar v => exact (not_fail h).elim

/-! ### Steps that succeed

Where the outcome of a computation is to be shown, its steps are run one by one. -/

section Runs

variable {g₁ : Generator} {lines : List Line} {s s' : Stock}

theorem bind_run {x : Gen α} {f : α → Gen β} {a : α} (h : x g = .ok a g₁) :
    (x >>= f) g = f a g₁ := by
  simp only [bind, EStateM.bind, h]

theorem temp_run {w : Width} {v : Var} (h : s.Takes w v s') :
    temp w (g.grow lines s) = .ok v (g.grow lines s') := by
  obtain ⟨memory, hmemory, rfl⟩ := h
  have hmemory : (g.grow lines s).memory.temp w = (.ok v, memory) := hmemory
  rw [temp, allocate, bind_run (get_run _)]
  simp only [hmemory]
  rfl

theorem emit_run (g : Generator) (lines more : List Line) (s : Stock) :
    emit more (g.grow lines s) = .ok () (g.grow (lines ++ more) s) := by
  rw [← Generator.grow_grow]
  rfl

theorem newLabels_run (g : Generator) (lines : List Line) (s : Stock) (count : Nat) :
    newLabels count (g.grow lines s) = .ok s.labels (g.grow lines (s.skip count)) := rfl

theorem recycle_run (g : Generator) (lines : List Line) (s : Stock) (v : Var) :
    recycle v (g.grow lines s) = .ok () (g.grow lines (s.release v)) := rfl

end Runs

/-! ### Operands -/

theorem of_changeWidth {src dst : Var} {u : Unit} (h : changeWidth src dst g = .ok u g') :
    g' = g.grow (Code.resize src dst) g.stock := by
  unfold changeWidth at h
  split at h
  case isTrue => cases h
  case isFalse => exact of_emit h

/-- A change of width covers the copy at one width. -/
theorem assign_eq_resize {src dst : Var} (h : src.width = dst.width) :
    Code.assign src dst none = Code.resize src dst := by
  simp [Code.assign, Code.resize, Var.cells, h]

theorem of_store {src dst : Var} {u : Unit} (h : store src dst g = .ok u g') :
    g' = g.grow (Code.resize src dst) g.stock := by
  unfold store at h
  split at h
  case isTrue hw =>
    rw [← assign_eq_resize hw]
    exact of_emit h
  case isFalse => exact of_changeWidth h

theorem of_convert {v v' : Var} {w : Width} (h : convert v w g = .ok v' g') :
    ∃ lines s', Converted g.stock v w lines v' s' ∧ g' = g.grow lines s' := by
  unfold convert at h
  split at h
  case isTrue hw =>
    obtain ⟨rfl, rfl⟩ := of_pure h
    exact ⟨_, _, .same hw, rfl⟩
  case isFalse hw =>
    obtain ⟨res, _, ⟨s', ht, rfl⟩, h⟩ := after of_temp h
    obtain ⟨_, _, rfl, h⟩ := after of_changeWidth h
    obtain ⟨_, _, rfl, h⟩ := after of_free h
    obtain ⟨rfl, rfl⟩ := of_pure h
    exact ⟨_, _, .resized hw ht, by simp⟩

theorem of_sameWidth {a b : Var} {p : Var × Var} (h : sameWidth a b g = .ok p g') :
    ∃ lines s', Matched g.stock a b lines p.1 p.2 s' ∧ g' = g.grow lines s' := by
  unfold sameWidth at h
  split at h
  case isTrue hw =>
    obtain ⟨rfl, rfl⟩ := of_pure h
    exact ⟨_, _, .same hw, rfl⟩
  case isFalse hw =>
    split at h
    case isTrue hb =>
      obtain ⟨wide, _, ⟨lines, s', hc, rfl⟩, h⟩ := after of_convert h
      obtain ⟨rfl, rfl⟩ := of_pure h
      exact ⟨_, _, .left (of_decide_eq_true hb) hc, rfl⟩
    case isFalse hb =>
      obtain ⟨wide, _, ⟨lines, s', hc, rfl⟩, h⟩ := after of_convert h
      obtain ⟨rfl, rfl⟩ := of_pure h
      exact ⟨_, _, .right (Width.cells_lt_of_not_isBelow hw (by simpa using hb)) hc, rfl⟩

theorem of_multiply {x y z : Var} {u : Unit} (h : multiply x y z g = .ok u g') :
    ∃ lines s', Operated g.stock x y z .mul lines s' ∧ g' = g.grow lines s' := by
  obtain ⟨_, _, rfl, h⟩ := after of_emit h
  obtain ⟨a, _, ⟨s₁, ha, rfl⟩, h⟩ := after of_temp h
  obtain ⟨b, _, ⟨s₂, hb, rfl⟩, h⟩ := after of_temp h
  obtain ⟨n, _, ⟨rfl, rfl⟩, h⟩ := after of_newLabels h
  obtain ⟨_, _, rfl, h⟩ := after of_emit h
  obtain ⟨_, _, rfl, h⟩ := after of_recycle h
  obtain rfl := of_recycle h
  exact ⟨_, _, .multiply ha hb, by simp⟩

theorem of_divide {x y q : Var} {remainder : Bool} {u : Unit}
    (h : divide x y q remainder g = .ok u g') :
    ∃ lines s', Operated g.stock x y q (if remainder then .mod else .div) lines s'
      ∧ g' = g.grow lines s' := by
  obtain ⟨_, _, rfl, h⟩ := after of_emit h
  obtain ⟨a, _, ⟨s₁, ha, rfl⟩, h⟩ := after of_temp h
  obtain ⟨b, _, ⟨s₂, hb, rfl⟩, h⟩ := after of_temp h
  obtain ⟨n, _, ⟨rfl, rfl⟩, h⟩ := after of_newLabels h
  obtain ⟨_, _, rfl, h⟩ := after of_emit h
  obtain ⟨_, _, rfl, h⟩ := after of_recycle h
  obtain rfl := of_recycle h
  exact ⟨_, _, .divide remainder ha hb, by simp⟩

theorem of_operate {op : BinaryOp} {a b res : Var} {u : Unit}
    (h : operate op a b res g = .ok u g') :
    ∃ lines s', Operated g.stock a b res op lines s' ∧ g' = g.grow lines s' := by
  cases op with
  | mul => exact of_multiply h
  | div => exact of_divide h
  | mod => exact of_divide h
  | add | sub | and | or | xor => exact ⟨_, _, .combine rfl, of_emit h⟩

theorem of_binary {op : BinaryOp} {a b res : Var} (h : binary op a b g = .ok res g') :
    ∃ a' b' lines₃ lines₄ s₃ s₄ s₅, Matched g.stock a b lines₃ a' b' s₃
      ∧ s₃.Takes a'.width res s₄ ∧ Operated s₄ a' b' res op lines₄ s₅
      ∧ g' = g.grow (lines₃ ++ (lines₄ ++ (freeLines a' ++ freeLines b')))
        ((s₅.release a').release b') := by
  obtain ⟨⟨a', b'⟩, _, ⟨lines₃, s₃, hm, rfl⟩, h⟩ := after of_sameWidth h
  obtain ⟨_, _, ⟨s₄, ht, rfl⟩, h⟩ := after of_temp h
  obtain ⟨_, _, ⟨lines₄, s₅, ho, rfl⟩, h⟩ := after of_operate h
  obtain ⟨_, _, rfl, h⟩ := after of_free h
  obtain ⟨_, _, rfl, h⟩ := after of_free h
  obtain ⟨rfl, rfl⟩ := of_pure h
  exact ⟨_, _, _, _, _, _, _, hm, ht, ho, by simp⟩

theorem of_constant {value : Nat} {w : Width} {v : Var} (h : constant value w g = .ok v g') :
    ∃ s', g.stock.Takes w v s' ∧ g' = g.grow (Code.constant value v) s' := by
  obtain ⟨_, _, ⟨s', ht, rfl⟩, h⟩ := after of_temp h
  obtain ⟨_, _, rfl, h⟩ := after of_emit h
  obtain ⟨rfl, rfl⟩ := of_pure h
  exact ⟨_, ht, by simp⟩

theorem of_negate {v res : Var} (h : negate v g = .ok res g') :
    ∃ s', g.stock.Takes v.width res s' ∧ g' = g.grow
      (Code.clear res ++ (Code.combine .sub res v res ++ freeLines v)) (s'.release v) := by
  obtain ⟨_, _, ⟨s', ht, rfl⟩, h⟩ := after of_temp h
  obtain ⟨_, _, rfl, h⟩ := after of_emit h
  obtain ⟨_, _, rfl, h⟩ := after of_emit h
  obtain ⟨_, _, rfl, h⟩ := after of_free h
  obtain ⟨rfl, rfl⟩ := of_pure h
  exact ⟨_, ht, by simp⟩

theorem of_readElement {arr : ArrayVar} {i dst : Var} {u : Unit}
    (h : readElement arr i dst g = .ok u g') :
    ∃ offset s', g.stock.Takes .byte offset s'
      ∧ g' = g.grow (Code.readElement arr i dst offset) (s'.release offset) := by
  obtain ⟨_, _, ⟨s', ht, rfl⟩, h⟩ := after of_temp h
  obtain ⟨_, _, rfl, h⟩ := after of_emit h
  obtain rfl := of_recycle h
  exact ⟨_, _, ht, by simp⟩

theorem of_half {v res : Var} {upper : Bool} (h : half v upper g = .ok res g') :
    (v.width = .nibble ∧ res = v ∧ g = g') ∨ ∃ w s', v.width.half? = some w
      ∧ g.stock.Takes w res s'
      ∧ g' = g.grow (Code.extract v (if upper then v.cells / 2 else 0) res) s' := by
  unfold half at h
  cases hw : v.width with
  | nibble =>
    rw [hw] at h
    obtain ⟨rfl, rfl⟩ := of_pure h
    exact .inl ⟨rfl, rfl, rfl⟩
  | byte | word =>
    rw [hw] at h
    obtain ⟨_, _, ⟨s', ht, rfl⟩, h⟩ := after of_temp h
    obtain ⟨_, _, rfl, h⟩ := after of_emit h
    obtain ⟨rfl, rfl⟩ := of_pure h
    exact .inr ⟨_, _, rfl, ht, by simp⟩

end Gen

/-! ### Expressions -/

theorem Expr.coded_of_generate {e : Expr} {g g' : Generator} {v : Var}
    (h : e.generate g = .ok v g') :
    ∃ lines s', e.Coded g.scope g.stock lines v s' ∧ g' = g.grow lines s' := by
  induction e generalizing g g' v with
  | fault why => exact (Gen.not_fail h).elim
  | scalar x =>
    obtain ⟨_, _, rfl, h⟩ := Gen.after Gen.of_locate h
    obtain ⟨hx, rfl⟩ := Gen.of_scalar h
    exact ⟨_, _, .scalar hx, rfl⟩
  | literal pos value =>
    obtain ⟨_, _, rfl, h⟩ := Gen.after Gen.of_locate h
    obtain ⟨s', ht, rfl⟩ := Gen.of_constant h
    exact ⟨_, _, .literal ht, by simp⟩
  | negLiteral pos value =>
    obtain ⟨_, _, rfl, h⟩ := Gen.after Gen.of_locate h
    obtain ⟨s', ht, rfl⟩ := Gen.of_constant h
    exact ⟨_, _, .negLiteral ht, by simp⟩
  | element x index close ih =>
    obtain ⟨_, _, rfl, h⟩ := Gen.after Gen.of_locate h
    obtain ⟨arr, _, ⟨ha, rfl⟩, h⟩ := Gen.after Gen.of_array h
    obtain ⟨i, _, ⟨lines, s₁, hi, rfl⟩, h⟩ := Gen.after ih h
    obtain ⟨_, _, ⟨rfl, rfl⟩, h⟩ := Gen.after Gen.of_pass h
    obtain ⟨_, _, ⟨s₂, hr, rfl⟩, h⟩ := Gen.after Gen.of_temp h
    obtain ⟨_, _, ⟨offset, s₃, ho, rfl⟩, h⟩ := Gen.after Gen.of_readElement h
    obtain ⟨_, _, rfl, h⟩ := Gen.after Gen.of_free h
    obtain ⟨rfl, rfl⟩ := Gen.of_pure h
    exact ⟨_, _, .element ha hi hr ho, by simp⟩
  | half pos upper x close =>
    obtain ⟨_, _, rfl, h⟩ := Gen.after Gen.of_locate h
    obtain ⟨u, _, ⟨hx, rfl⟩, h⟩ := Gen.after Gen.of_scalar h
    obtain ⟨_, _, ⟨rfl, rfl⟩, h⟩ := Gen.after Gen.of_pass h
    obtain ⟨hw, rfl, rfl⟩ | ⟨w, s', hw, ht, rfl⟩ := Gen.of_half h
    · exact ⟨_, _, .halfNibble hx hw, rfl⟩
    · exact ⟨_, _, .half hx hw ht, by simp⟩
  | paren e close ih =>
    obtain ⟨_, _, ⟨lines, s', he, rfl⟩, h⟩ := Gen.after ih h
    obtain ⟨_, _, ⟨rfl, rfl⟩, h⟩ := Gen.after Gen.of_pass h
    obtain ⟨rfl, rfl⟩ := Gen.of_pure h
    exact ⟨_, _, .paren he, rfl⟩
  | negate e ih =>
    obtain ⟨v, _, ⟨lines, s₁, he, rfl⟩, h⟩ := Gen.after ih h
    obtain ⟨wide, _, ⟨lines', s₂, hc, rfl⟩, h⟩ := Gen.after Gen.of_convert h
    obtain ⟨s₃, ht, rfl⟩ := Gen.of_negate h
    exact ⟨_, _, .negate he hc ht, by simp⟩
  | binary op lhs rhs ihl ihr =>
    obtain ⟨a, _, ⟨lines₁, s₁, ha, rfl⟩, h⟩ := Gen.after ihl h
    obtain ⟨b, _, ⟨lines₂, s₂, hb, rfl⟩, h⟩ := Gen.after ihr h
    obtain ⟨a', b', lines₃, lines₄, s₃, s₄, s₅, hm, ht, ho, rfl⟩ := Gen.of_binary h
    exact ⟨_, _, .binary ha hb hm ht ho, by simp⟩

end NibblePascal
