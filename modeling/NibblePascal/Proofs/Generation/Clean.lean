import NibblePascal.Proofs.Generation.Block
import NibblePascal.Proofs.Generation.Edits

/-!
# Edits can be made

When a branch is resolved, its jumps are there and wait for their targets.  `m.Clean g`: no edit of
the code that the computation `m` makes at the generator `g` fails.  A computation in two steps is
clean if the first step is, and the second one wherever the first may lead.  Where that is, the
lemmas on successful steps say.  A computation is tame if it is clean at every generator, as those
are that edit nothing.
-/

namespace NibblePascal

namespace Gen

variable {α β : Type} {g : Generator} {m : Gen α} {f : α → Gen β}

/-- If the computation stops at a defect, then not at one of an edit. -/
def Clean (m : Gen α) (g : Generator) : Prop :=
  ∀ why g', m g = .error (.defect why) g' → why.isEdit = false

theorem Clean.of_eq {a : α} {g' : Generator} (h : m g = .ok a g') : m.Clean g := by
  intro why g'' he
  rw [h] at he
  cases he

/-- The second step is clean wherever the first one may lead. -/
theorem Clean.after {P : α → Generator → Prop} (hm : m.Clean g)
    (hx : ∀ {a g₁}, m g = .ok a g₁ → P a g₁) (hf : ∀ a g₁, P a g₁ → (f a).Clean g₁) :
    (m >>= f).Clean g := by
  intro why g' h
  simp only [bind, EStateM.bind] at h
  split at h
  case h_1 ha => exact hf _ _ (hx ha) why g' h
  case h_2 he =>
    cases h
    exact hm _ _ he

/-- A computation may look at the generator first. -/
theorem Clean.get {f : Generator → Gen β} (h : (f g).Clean g) : (MonadState.get >>= f).Clean g := h

/-- A computation that is clean everywhere. -/
def Tame (m : Gen α) : Prop := ∀ g, m.Clean g

theorem Tame.bind (hm : m.Tame) (hf : ∀ a, (f a).Tame) : (m >>= f).Tame :=
  fun g => .after (hm g) id fun a g₁ _ => hf a g₁

theorem Tame.get {f : Generator → Gen β} (h : ∀ g, (f g).Tame) : (MonadState.get >>= f).Tame :=
  fun g => h g g

theorem tame_pure (a : α) : (pure a : Gen α).Tame := fun _ => .of_eq rfl

theorem tame_fail (why : Fault) : (fail why : Gen α).Tame := nofun

theorem tame_complain (pos : Pos) (why : Complaint) : (complain pos why : Gen α).Tame := nofun

theorem tame_defect {why : Defect} (h : why.isEdit = false) :
    (throw (.defect why) : Gen α).Tame := by
  rintro g _ _ ⟨⟩
  exact h

theorem tame_emit (lines : List Line) : (emit lines).Tame := fun _ => .of_eq rfl

theorem tame_place (label : String) : (place label).Tame := fun _ => .of_eq rfl

theorem tame_newLabels (count : Nat) : (newLabels count).Tame := fun _ => .of_eq rfl

theorem tame_newLabel : newLabel.Tame := fun _ => .of_eq rfl

theorem tame_locate (pos : Pos) : (locate pos).Tame := fun _ => .of_eq rfl

theorem tame_recycle (v : Var) : (recycle v).Tame := fun _ => .of_eq rfl

theorem tame_putProcedure (p : Procedure) : (putProcedure p).Tame := fun _ => .of_eq rfl

theorem tame_set (g : Generator) : (set g : Gen PUnit).Tame := fun _ => .of_eq rfl

theorem tame_procedure? (name : String) : (procedure? name).Tame := fun _ => .of_eq rfl

theorem tame_free (v : Var) : (free v).Tame := by
  unfold free
  split
  exacts [fun _ => .of_eq rfl, tame_pure ()]

theorem tame_pass (gate : Gate) : (pass gate).Tame := by
  cases gate with
  | passed => exact tame_pure ()
  | blocked why => exact tame_fail why

theorem tame_allocate (f : Allocator → Except Fault α × Allocator) : (allocate f).Tame := by
  refine .get fun g => ?_
  dsimp only
  refine (tame_set _).bind fun _ => ?_
  split
  · exact tame_pure _
  · split
    exacts [tame_fail _, tame_defect rfl]

theorem tame_temp (w : Width) : (temp w).Tame := tame_allocate _

theorem tame_symbol (x : Token) : (symbol x).Tame := by
  refine .get fun g => ?_
  split
  exacts [tame_pure _, tame_complain _ _]

theorem tame_scalar (construct : String) (x : Token) : (scalar construct x).Tame := by
  refine (tame_symbol x).bind fun symbol => ?_
  cases symbol with
  | scalar v => exact tame_pure v
  | array a => exact tame_complain _ _

theorem tame_array (x : Token) : (array x).Tame := by
  refine (tame_symbol x).bind fun symbol => ?_
  cases symbol with
  | scalar v => exact tame_complain _ _
  | array a => exact tame_pure a

/-! ### Operands -/

theorem tame_changeWidth (src dst : Var) : (changeWidth src dst).Tame := by
  unfold changeWidth
  split
  exacts [tame_defect rfl, tame_emit _]

theorem tame_store (src dst : Var) : (store src dst).Tame := by
  unfold store
  split
  exacts [tame_emit _, tame_changeWidth src dst]

theorem tame_convert (v : Var) (w : Width) : (convert v w).Tame := by
  unfold convert
  split
  · exact tame_pure v
  · exact (tame_temp w).bind fun _ => (tame_changeWidth _ _).bind fun _ =>
      (tame_free v).bind fun _ => tame_pure _

theorem tame_sameWidth (a b : Var) : (sameWidth a b).Tame := by
  unfold sameWidth
  split
  · exact tame_pure (a, b)
  · split
    · exact (tame_convert a b.width).bind fun _ => tame_pure _
    · exact (tame_convert b a.width).bind fun _ => tame_pure _

/-- A fragment of code with two temporaries. -/
theorem tame_twoTemps (text : String) (w : Width) (count : Nat)
    (code : Var → Var → Nat → List Line) : Tame (do
      emit [Code.comment text]
      let u ← temp w
      let v ← temp w
      let n ← newLabels count
      emit (code u v n)
      recycle u
      recycle v) :=
  (tame_emit _).bind fun _ => (tame_temp _).bind fun _ => (tame_temp _).bind fun _ =>
    (tame_newLabels _).bind fun _ => (tame_emit _).bind fun _ => (tame_recycle _).bind fun _ =>
      tame_recycle _

theorem tame_operate (op : BinaryOp) (a b res : Var) : (operate op a b res).Tame := by
  cases op with
  | mul | div | mod => exact tame_twoTemps _ _ _ _
  | add | sub | and | or | xor => exact tame_emit _

theorem tame_binary (op : BinaryOp) (a b : Var) : (binary op a b).Tame :=
  (tame_sameWidth a b).bind fun _ => (tame_temp _).bind fun res => (tame_operate op _ _ res).bind
    fun _ => (tame_free _).bind fun _ => (tame_free _).bind fun _ => tame_pure res

theorem tame_constant (value : Nat) (w : Width) : (constant value w).Tame :=
  (tame_temp w).bind fun _ => (tame_emit _).bind fun _ => tame_pure _

theorem tame_negate (v : Var) : (negate v).Tame :=
  (tame_temp _).bind fun _ => (tame_emit _).bind fun _ => (tame_emit _).bind fun _ =>
    (tame_free v).bind fun _ => tame_pure _

theorem tame_readElement (arr : ArrayVar) (i dst : Var) : (readElement arr i dst).Tame :=
  (tame_temp _).bind fun _ => (tame_emit _).bind fun _ => tame_recycle _

theorem tame_writeElement (arr : ArrayVar) (i src : Var) : (writeElement arr i src).Tame := by
  have hwrite (_ : Unit) : Tame (do
      let offset ← temp .byte
      emit (Code.writeElement arr i src offset)
      recycle offset) :=
    (tame_temp _).bind fun _ => (tame_emit _).bind fun _ => tame_recycle _
  unfold writeElement
  split
  exacts [(tame_defect rfl).bind hwrite, hwrite ()]

theorem tame_half (v : Var) (upper : Bool) : (half v upper).Tame := by
  unfold half
  cases v.width with
  | nibble => exact tame_pure v
  | byte | word => exact (tame_temp _).bind fun _ => (tame_emit _).bind fun _ => tame_pure _

end Gen

/-! ### Expressions -/

open Gen in
theorem Expr.tame (e : Expr) : e.generate.Tame := by
  induction e with
  | fault why => exact tame_fail why
  | scalar x => exact (tame_locate _).bind fun _ => tame_scalar _ x
  | literal pos value | negLiteral pos value =>
    exact (tame_locate _).bind fun _ => tame_constant _ _
  | element x index close ih =>
    exact (tame_locate _).bind fun _ => (tame_array x).bind fun arr => ih.bind fun i =>
      (tame_pass close).bind fun _ => (tame_temp _).bind fun res =>
        (tame_readElement arr i res).bind fun _ => (tame_free i).bind fun _ =>
          tame_pure res
  | half pos upper x close =>
    exact (tame_locate _).bind fun _ => (tame_scalar _ x).bind fun v =>
      (tame_pass close).bind fun _ => tame_half v upper
  | paren e close ih => exact ih.bind fun v => (tame_pass close).bind fun _ => tame_pure v
  | negate e ih => exact ih.bind fun v => (tame_convert v .word).bind fun _ => tame_negate _
  | binary op lhs rhs ihl ihr => exact ihl.bind fun a => ihr.bind fun b => tame_binary op a b

/-! ### Conditions -/

namespace Gen

variable {g : Generator} {a b : List Line} {s : Stock} {test : List TestLine}

theorem tame_emitTest (b : Branch) (test : List TestLine) : (emitTest b test).Tame := by
  induction test generalizing b with
  | nil => exact tame_pure b
  | cons l test ih =>
    cases l with
    | line l => exact (tame_emit [l]).bind fun _ => ih b
    | exit outcome kind =>
      exact .bind (m := addExit b outcome kind) (fun _ => .of_eq rfl) fun _ => ih _

theorem tame_relation (u v : Var) (rel : Relation) : (relation u v rel).Tame := by
  have htest (_ : Unit) : Tame (do
      let n ← newLabels (Code.relationLabels rel u)
      emitTest {} (Code.relationTest rel u v n)) :=
    (tame_newLabels _).bind fun _ => tame_emitTest _ _
  unfold relation
  split
  exacts [.get fun _ => (tame_complain _ _).bind htest, htest ()]

/-- The exits of a test at the end of the code. -/
theorem clean_resolveBoth (a b : List Line) (yes no : String) :
    (resolveBoth (.ofTest a.length test) yes no).Clean
      (g.holding (a ++ (Code.closeTest "" "" test ++ b)) s) :=
  .of_eq (resolveBoth_eq a b yes no)

theorem clean_merge (test : List TestLine) (a : List Line) (yes no : String) :
    (merge (.ofTest a.length test) yes no).Clean
      (g.holding (a ++ Code.closeTest "" "" test) s) := by
  have hboth : (resolveBoth (.ofTest a.length test) yes no).Clean
      (g.holding (a ++ (Code.closeTest "" "" test ++ [])) s) := clean_resolveBoth a [] yes no
  rw [List.append_nil] at hboth
  exact .after hboth id fun _ _ _ => .of_eq rfl

/-- A computation that is clean behind any code. -/
def Cleans (g : Generator) (code : Gen Branch) : Prop :=
  ∀ {a : List Line} {s : Stock}, code.Clean (g.holding a s)

variable {code : Gen Branch} {R R' : Stock → List TestLine → Stock → Prop}

theorem clean_alternative (hc : Cleans g code) (ht : Tests g code R) (chain : Chain) :
    (alternative ⟨.ofTest a.length chain.test, chain.yes, chain.no⟩ code).Clean
      (g.holding (a ++ Code.closeTest "" "" chain.test) s) := by
  refine .after (tame_newLabel _) of_newLabel ?_
  rintro _ _ ⟨rfl, rfl⟩
  refine .after (tame_place _ _) of_place ?_
  rintro _ _ rfl
  simp only [Generator.grow_holding, Generator.stock_holding, List.append_nil, List.append_assoc]
  refine .after hc ht ?_
  rintro br _ ⟨test, s', -, rfl, rfl⟩
  simp only [List.append_assoc]
  exact .after (clean_resolveBoth a _ _ _) id fun _ _ _ => tame_pure _ _

theorem clean_lastAlternative (hc : Cleans g code) (ht : Tests g code R) (chain : Chain) :
    (lastAlternative (some ⟨.ofTest a.length chain.test, chain.yes, chain.no⟩) code).Clean
      (g.holding (a ++ Code.closeTest "" "" chain.test) s) := by
  refine .after (clean_alternative hc ht chain) (of_alternative ht) ?_
  rintro br _ ⟨test, s', -, rfl, rfl⟩
  rw [Code.continued, Branch.ofTest_append_of_lines]
  have hmerge := clean_merge (g := g) (s := s') test
    (a ++ (Code.closeTest chain.yes (Code.labelName s.labels) chain.test
      ++ [.label (Code.labelName s.labels)])) chain.yes chain.no
  simpa using hmerge

theorem clean_conjunction {lhs rhs : Gen Branch} (hl : Cleans g lhs) (hr : Cleans g rhs)
    (htl : Tests g lhs R) (htr : Tests g rhs R') : (conjunction lhs rhs).Clean (g.holding a s) := by
  refine .after hl htl ?_
  rintro _ _ ⟨test₁, s₁, h₁, rfl, rfl⟩
  refine .after (tame_newLabel _) of_newLabel ?_
  rintro _ _ ⟨rfl, rfl⟩
  refine .after (tame_newLabel _) of_newLabel ?_
  rintro _ _ ⟨rfl, rfl⟩
  refine .after (tame_newLabel _) of_newLabel ?_
  rintro _ _ ⟨rfl, rfl⟩
  refine .after (tame_place _ _) of_place ?_
  rintro _ _ rfl
  simp only [Generator.grow_holding, Generator.stock_holding, List.append_nil, List.append_assoc,
    Stock.skip_skip, Stock.labels_skip, Nat.reduceAdd]
  refine .after hr htr ?_
  rintro _ _ ⟨test₂, s₂, -, rfl, rfl⟩
  simp only [List.append_assoc]
  refine .after (clean_resolveBoth a _ _ _) of_resolveBoth ?_
  rintro _ _ rfl
  have hmerge := clean_merge (g := g) (s := s₂) test₂
    (a ++ (Code.closeTest (Code.labelName (s₁.labels + 2)) (Code.labelName (s₁.labels + 1)) test₁
      ++ [.label (Code.labelName (s₁.labels + 2))]))
    (Code.labelName s₁.labels) (Code.labelName (s₁.labels + 1))
  simpa using hmerge

/-- A test of one scalar. -/
theorem tame_scalarTest (e : Expr) {test : Var → Gen Branch} (ht : ∀ v, (test v).Tame) :
    Tame (do
      let v ← e.generate
      let branch ← test v
      free v
      return branch) :=
  e.tame.bind fun v => (ht v).bind fun _ => (tame_free v).bind fun _ => tame_pure _

end Gen

namespace Cond

variable {g : Generator} {c : Cond}

/-- A condition that continues a chain is clean behind the chain. -/
def CleansIn (g : Generator) (c : Cond) : Prop :=
  ∀ (chain : Chain) {a : List Line} {s : Stock},
    (c.generateIn (some ⟨.ofTest a.length chain.test, chain.yes, chain.no⟩)).Clean
      (g.holding (a ++ Code.closeTest "" "" chain.test) s)

theorem cleansIn_of_cleans (h : Gen.Cleans g (c.generateIn none))
    (hc : ∀ lhs rhs, c ≠ .or lhs rhs) : c.CleansIn g := by
  intro chain a s
  rw [generateIn_some hc]
  exact Gen.clean_lastAlternative h (generates_and_continues c).1 chain

theorem cleans_or {lhs rhs : Cond} (hl : Gen.Cleans g (lhs.generateIn none))
    (hr : rhs.CleansIn g) : Gen.Cleans g ((or lhs rhs).generateIn none) := by
  intro a s
  refine .after hl (generates_and_continues lhs).1 ?_
  rintro _ _ ⟨test₁, s₁, h₁, rfl, rfl⟩
  refine .after (Gen.tame_newLabel _) Gen.of_newLabel ?_
  rintro _ _ ⟨rfl, rfl⟩
  refine .after (Gen.tame_newLabel _) Gen.of_newLabel ?_
  rintro _ _ ⟨rfl, rfl⟩
  simp only [Generator.grow_holding, Generator.stock_holding, List.append_nil, Stock.skip_skip,
    Stock.labels_skip, Nat.reduceAdd]
  exact hr ⟨test₁, _, _⟩

theorem cleansIn_or {lhs rhs : Cond} (hl : Gen.Cleans g (lhs.generateIn none))
    (hr : rhs.CleansIn g) : (or lhs rhs).CleansIn g := by
  intro chain a s
  have htests : lhs.Generates g := (generates_and_continues lhs).1
  refine .after (Gen.clean_alternative hl htests chain) (Gen.of_alternative htests) ?_
  rintro _ _ ⟨test₁, s₁, h₁, rfl, rfl⟩
  exact hr { chain with test := _ }

theorem cleans_and_cleansIn (c : Cond) : Gen.Cleans g (c.generateIn none) ∧ c.CleansIn g := by
  induction c with
  | or lhs rhs ihl ihr => exact ⟨cleans_or ihl.1 ihr.2, cleansIn_or ihl.1 ihr.2⟩
  | fault why =>
    have h : Gen.Cleans g ((fault why).generateIn none) := Gen.tame_fail why _
    exact ⟨h, cleansIn_of_cleans h nofun⟩
  | compare lhs rel rhs =>
    have h : Gen.Cleans g ((compare lhs rel rhs).generateIn none) :=
      (lhs.tame.bind fun _ => rhs.tame.bind fun _ => (Gen.tame_sameWidth _ _).bind fun _ =>
        (Gen.tame_relation _ _ rel).bind fun _ => (Gen.tame_free _).bind fun _ =>
          (Gen.tame_free _).bind fun _ => Gen.tame_pure _) _
    exact ⟨h, cleansIn_of_cleans h nofun⟩
  | nonzero e =>
    have h : Gen.Cleans g ((nonzero e).generateIn none) :=
      Gen.tame_scalarTest e (fun _ => Gen.tame_emitTest _ _) _
    exact ⟨h, cleansIn_of_cleans h nofun⟩
  | odd e =>
    have h : Gen.Cleans g ((odd e).generateIn none) :=
      Gen.tame_scalarTest e (fun _ => Gen.tame_emitTest _ _) _
    exact ⟨h, cleansIn_of_cleans h nofun⟩
  | group c close ih =>
    have h : Gen.Cleans g ((group c close).generateIn none) :=
      .after ih.1 id fun _ _ _ => (Gen.tame_pass close).bind (fun _ => Gen.tame_pure _) _
    exact ⟨h, cleansIn_of_cleans h nofun⟩
  | and lhs rhs ihl ihr =>
    have h : Gen.Cleans g ((and lhs rhs).generateIn none) :=
      Gen.clean_conjunction ihl.1 ihr.1 (generates_and_continues lhs).1
        (generates_and_continues rhs).1
    exact ⟨h, cleansIn_of_cleans h nofun⟩

theorem clean (c : Cond) (o : Outline) (code : List Piece) :
    c.generate.Clean (o.generator code) := by
  rw [Outline.generator_eq_holding]
  exact (cleans_and_cleansIn c).1

end Cond

/-! ### Statements -/

namespace Gen

variable {o : Outline} {code : List Piece}

theorem tame_fill (arr : ArrayVar) (cells : List Nat) (pos : Pos) (why : Complaint) :
    (fill arr cells pos why).Tame := by
  unfold fill ArrayVar.checkedSize
  by_cases hs : arr.size < 0x10000
  · simp only [hs, if_true]
    split
    exacts [tame_complain _ _, tame_emit _]
  · simp only [hs, if_false]
    exact tame_defect rfl

theorem tame_fillText (x text : Token) : (fillText x text).Tame := by
  refine (tame_array x).bind fun arr => ?_
  split
  · exact tame_complain _ _
  · split
    exacts [tame_complain _ _, tame_fill _ _ _ _]

theorem tame_assignArray (x y : Token) : (assignArray x y).Tame := by
  refine (tame_array x).bind fun dst => (tame_array y).bind fun src => ?_
  have hcopy : (copyArray src dst).Tame := by
    refine (tame_emit _).bind fun _ => ?_
    unfold ArrayVar.checkedSize
    by_cases hs : src.size < 0x10000
    · simp only [hs, if_true]
      exact tame_emit _
    · simp only [hs, if_false]
      exact tame_defect rfl
  have hshort : Tame (do
      if dst.len < src.len then complain y.pos (.tooShortForArray dst.name src.name)
      copyArray src dst) := by
    split
    exacts [(tame_complain _ _).bind fun _ => hcopy, hcopy]
  dsimp only
  by_cases hw : src.width = dst.width
  · rw [if_neg (not_not_intro hw)]
    exact hshort
  · rw [if_pos hw]
    exact (tame_complain _ _).bind fun _ => hshort

theorem tame_callNamed (p : Token) : (callNamed p).Tame := by
  refine (tame_procedure? _).bind fun found => ?_
  cases found with
  | none => exact tame_complain _ _
  | some proc =>
    refine .get fun g => ?_
    split
    exacts [fun _ => .of_eq rfl, tame_complain _ _]

theorem tame_inlineLines (texts : List Token) : (texts.forM inlineLine).Tame := by
  induction texts with
  | nil => exact tame_pure ()
  | cons text texts ih =>
    have hline : (inlineLine text).Tame := by
      refine .get fun g => ?_
      dsimp only
      split
      exacts [tame_emit _, tame_complain _ _]
    exact hline.bind fun _ => ih

/-! ### Statements with bodies -/

theorem clean_openChoice (c : Cond) (gate : Gate) :
    (openChoice c gate).Clean (o.generator code) := by
  refine .after (tame_newLabel _) outline_newLabel ?_
  rintro _ _ ⟨rfl, rfl⟩
  refine .after (tame_newLabel _) outline_newLabel ?_
  rintro _ _ ⟨rfl, rfl⟩
  refine .after (tame_newLabel _) outline_newLabel ?_
  rintro _ _ ⟨rfl, rfl⟩
  refine .after (c.clean _ _) outline_condition ?_
  rintro _ _ ⟨test, s', -, rfl, rfl⟩
  rw [← List.append_nil (Piece.ofLines _)]
  refine .after (.of_eq (resolve_outline_true _ _ _ _ _)) id fun _ _ _ => ?_
  exact (tame_pass gate).bind (fun _ => (tame_place _).bind fun _ => tame_pure _) _

theorem clean_otherwise {test : List TestLine} (code rest : List Piece)
    (yes other exit : String) :
    (otherwise ⟨⟨[], Code.exitIds false code.length test⟩, other, exit⟩).Clean
      (o.generator (code ++ (Piece.ofLines (Code.closeTest yes "" test) ++ rest))) :=
  .after (.of_eq (resolve_outline_false _ _ _ _ _)) id fun _ _ _ => .of_eq rfl

theorem clean_openWhile (c : Cond) (gate : Gate) :
    (openWhile c gate).Clean (o.generator code) := by
  refine .after (tame_newLabel _) outline_newLabel ?_
  rintro _ _ ⟨rfl, rfl⟩
  refine .after (tame_newLabel _) outline_newLabel ?_
  rintro _ _ ⟨rfl, rfl⟩
  refine .after (tame_newLabel _) outline_newLabel ?_
  rintro _ _ ⟨rfl, rfl⟩
  refine .after (tame_place _ _) outline_place ?_
  rintro _ _ rfl
  refine .after (c.clean _ _) outline_condition ?_
  rintro _ _ ⟨test, s', -, rfl, rfl⟩
  refine .after (.of_eq (resolveBoth_outline _ _ _)) id fun _ _ _ => ?_
  exact (tame_pass gate).bind (fun _ => (tame_place _).bind fun _ => tame_pure _) _

theorem clean_closeRepeat (k : Loop) (c : Cond) : (closeRepeat k c).Clean (o.generator code) := by
  refine .after (c.clean _ _) outline_condition ?_
  rintro _ _ ⟨test, s', -, rfl, rfl⟩
  exact .after (.of_eq (resolveBoth_outline _ _ _)) id fun _ _ _ => tame_place _ _

theorem clean_openFor (x : Token) (down : Bool) (first last : Expr) (gate : Gate) :
    (openFor x down first last gate).Clean (o.generator code) := by
  refine .after (tame_scalar _ x _) of_scalar ?_
  rintro v _ ⟨hx, rfl⟩
  refine .after (first.tame _) Expr.coded_of_generate ?_
  rintro start _ ⟨lines₁, s₁, -, rfl⟩
  refine .after (tame_store _ _ _) of_store ?_
  rintro _ _ rfl
  refine .after (tame_free _ _) of_free ?_
  rintro _ _ rfl
  refine .after (last.tame _) Expr.coded_of_generate ?_
  rintro bound _ ⟨lines₂, s₂, -, rfl⟩
  refine .after (tame_temp v.width _) of_temp ?_
  rintro limit _ ⟨s₃, -, rfl⟩
  refine .after (tame_store _ _ _) of_store ?_
  rintro _ _ rfl
  refine .after (tame_free _ _) of_free ?_
  rintro _ _ rfl
  refine .after (tame_pass gate _) of_pass ?_
  rintro _ _ ⟨rfl, rfl⟩
  simp only [Outline.grow_generator]
  refine .after (tame_newLabel _) outline_newLabel ?_
  rintro _ _ ⟨rfl, rfl⟩
  refine .after (tame_newLabel _) outline_newLabel ?_
  rintro _ _ ⟨rfl, rfl⟩
  refine .after (tame_newLabel _) outline_newLabel ?_
  rintro _ _ ⟨rfl, rfl⟩
  refine .after (tame_newLabel _) outline_newLabel ?_
  rintro _ _ ⟨rfl, rfl⟩
  refine .after (tame_place _ _) outline_place ?_
  rintro _ _ rfl
  refine .after (tame_relation v limit _ _) outline_relation ?_
  rintro _ _ ⟨-, rfl, rfl⟩
  exact .after (.of_eq (resolveBoth_outline _ _ _)) id fun _ _ _ => .of_eq rfl

theorem clean_closeFor (k : Counter) (down : Bool) :
    (closeFor k down).Clean (o.generator code) := by
  refine .after (tame_relation k.var k.limit _ _) outline_relation ?_
  rintro _ _ ⟨-, rfl, rfl⟩
  refine .after (.of_eq (resolveBoth_outline _ _ _)) id fun _ g₁ _ => ?_
  exact (tame_place _).bind (fun _ => (tame_emit _).bind fun _ => (tame_emit _).bind fun _ =>
    (tame_place _).bind fun _ => tame_free _) g₁

end Gen

open Gen in
theorem Stmt.clean (st : Stmt) {o : Outline} (hd : o.Distinct) {s : Stock} {code : List Piece} :
    st.generate.Clean ((o.restock s).generator code) := by
  induction st generalizing s code with
  | fault why => exact tame_fail why _
  | skip => exact tame_pure () _
  | seq first rest ihf ihr =>
    refine .after ihf (first.generates hd) ?_
    rintro _ _ ⟨code₁, s₁, -, rfl⟩
    exact ihr
  | nop => exact tame_emit _ _
  | block body close ih => exact .after ih id fun _ _ _ => tame_pass close _
  | assign x value =>
    exact ((tame_scalar _ x).bind fun _ => value.tame.bind fun v =>
      (tame_store _ _).bind fun _ => tame_free v) _
  | setElement x index value =>
    exact ((tame_array x).bind fun _ => index.tame.bind fun i => value.tame.bind fun _ =>
      (tame_convert _ _).bind fun v => (tame_writeElement _ _ _).bind fun _ =>
        (tame_free i).bind fun _ => tame_free v) _
  | fillList x values => exact ((tame_array x).bind fun _ => tame_fill _ _ _ _) _
  | fillText x text => exact tame_fillText x text _
  | copyArray x y => exact tame_assignArray x y _
  | call p => exact tame_callNamed p _
  | asm lines close =>
    exact ((tame_inlineLines lines).bind fun _ => tame_pass close) _
  | ifThen c gate yes ih =>
    refine .after (Gen.clean_openChoice c gate) Gen.outline_openChoice ?_
    rintro _ _ ⟨-, test, s₁, -, rfl, rfl⟩
    refine .after ih (yes.generates hd) ?_
    rintro _ _ ⟨code', s₂, -, rfl⟩
    rw [List.append_assoc, List.append_assoc]
    exact .after (.of_eq (Gen.resolve_outline_false _ _ _ _ _)) id fun _ _ _ => tame_place _ _
  | ifElse c gate yes no ihy ihn =>
    refine .after (Gen.clean_openChoice c gate) Gen.outline_openChoice ?_
    rintro _ _ ⟨-, test, s₁, -, rfl, rfl⟩
    refine .after ihy (yes.generates hd) ?_
    rintro _ _ ⟨code₁, s₂, -, rfl⟩
    rw [List.append_assoc, List.append_assoc]
    refine .after (Gen.clean_otherwise _ _ _ _ _) Gen.outline_otherwise ?_
    rintro _ _ rfl
    exact .after ihn id fun _ _ _ => tame_place _ _
  | whileDo c gate body ih =>
    refine .after (Gen.clean_openWhile c gate) Gen.outline_openWhile ?_
    rintro _ _ ⟨-, test, s₁, -, rfl, rfl⟩
    exact .after ih id fun _ _ _ => .of_eq rfl
  | repeatUntil body c ih =>
    refine .after (.of_eq rfl) Gen.outline_openRepeat ?_
    rintro _ _ ⟨rfl, rfl⟩
    refine .after (ih (s := s.skip 2)) (body.generates hd) ?_
    rintro _ _ ⟨code', s₁, -, rfl⟩
    exact Gen.clean_closeRepeat _ c
  | forDo x down first last gate body ih =>
    refine .after (Gen.clean_openFor x down first last gate) Gen.outline_openFor ?_
    rintro _ _ ⟨-, v, start, bound, limit, lines₁, lines₂, s₁, s₂, s₃, -, -, -, -, -, rfl, rfl⟩
    refine .after (ih (s := _)) (body.generates hd) ?_
    rintro _ _ ⟨code', s₄, -, rfl⟩
    exact Gen.clean_closeFor _ down
  | step op x => exact ((tame_scalar _ x).bind fun _ => tame_emit _) _
  | output port value =>
    exact (value.tame.bind fun v => (tame_emit _).bind fun _ => tame_free v) _
  | input x gate port =>
    exact ((tame_scalar _ x).bind fun _ => (tame_pass gate).bind fun _ => tame_emit _) _

end NibblePascal
