import Mathlib.Data.List.TakeDrop
import Mathlib.Data.List.TakeWhile
import NibblePascal.Proofs.Reading.Condition

/-!
# Reading follows the grammar

A tree that is read without a fault is spelled by the tokens that the reader took:
`Program.spelled_ofTokens`.
-/

namespace NibblePascal

/-- Whether a statement was read to its end. -/
def Stmt.isWhole : Stmt → Bool
  | fault _ => false
  | seq first rest => first.isWhole && rest.isWhole
  | block body close => body.isWhole && close == .passed
  | assign _ value => value.isWhole
  | setElement _ index value => index.isWhole && value.isWhole
  | asm _ close => close == .passed
  | ifThen c gate yes => c.isWhole && gate == .passed && yes.isWhole
  | ifElse c gate yes no => c.isWhole && gate == .passed && yes.isWhole && no.isWhole
  | whileDo c gate body => c.isWhole && gate == .passed && body.isWhole
  | repeatUntil body c => body.isWhole && c.isWhole
  | forDo _ _ first last gate body =>
      first.isWhole && last.isWhole && gate == .passed && body.isWhole
  | output _ value => value.isWhole
  | input _ gate _ => gate == .passed
  | _ => true

/-- Whether a block was read to its end. -/
def Block.isWhole : Block → Bool
  | fault _ => false
  | code s => s.isWhole
  | declare _ _ _ rest => rest.isWhole
  | procedure _ body close rest => body.isWhole && close == .passed && rest.isWhole

namespace Context

variable {c : Context} {ts rest : List Token}

/-! ### Statements -/

/-- A reader of statements follows the grammar, and leaves no `else` that belongs to what it
read. -/
def ReadsStmt (arrays : List String) (r : Reader Stmt) : Prop :=
  ∀ ⦃ts st rest⦄, r ts = (st, rest) → st.isWhole = true →
    (∃ us, ts = us ++ rest ∧ st.Spelled arrays .single us)
      ∧ (st.endsOpen = true → nextIs .kwElse rest = false)

theorem of_number {value : Nat} (h : c.number ts = .ok (value, rest)) :
    ∃ t, ts = t :: rest ∧ t.kind = .number ∧ t.numberValue = .ok value := by
  obtain ⟨⟨t, ts₁⟩, ht, h₁⟩ := of_bind_ok h
  obtain ⟨value', hv, h₂⟩ := of_bind_ok h₁
  cases h₂
  obtain ⟨hkind, rfl⟩ := of_expect ht
  exact ⟨t, rfl, hkind, hv⟩

theorem of_numbers {count : Nat} {values : List Nat} (h : c.numbers count ts = .ok (values, rest)) :
    ∃ us, ts = us ++ rest ∧ SpelledNumbers us values := by
  induction count generalizing ts values with
  | zero =>
    obtain ⟨⟨value, ts₁⟩, hvalue, h₁⟩ := of_bind_ok h
    cases h₁
    obtain ⟨t, rfl, ht, hv⟩ := of_number hvalue
    exact ⟨[t], rfl, .last ht hv⟩
  | succ count ih =>
    rw [numbers] at h
    obtain ⟨⟨value, ts₁⟩, hvalue, h₁⟩ := of_bind_ok h
    obtain ⟨t, rfl, ht, hv⟩ := of_number hvalue
    dsimp only at h₁
    split at h₁
    · rename_i ts₂ hcomma
      obtain ⟨comma, hc, rfl⟩ := of_accept hcomma
      obtain ⟨⟨more, ts₃⟩, hmore, h₂⟩ := of_bind_ok h₁
      cases h₂
      obtain ⟨us, rfl, hus⟩ := ih hmore
      exact ⟨t :: comma :: us, rfl, .more ht hv hc hus⟩
    · cases h₁
      exact ⟨[t], rfl, .last ht hv⟩

theorem of_port {port : Nat} (h : c.port ts = .ok (port, rest)) :
    ∃ t, ts = t :: rest ∧ SpelledPort t port := by
  unfold Context.port at h
  obtain ⟨⟨t, ts₁⟩, ht, h₁⟩ := of_bind_ok h
  obtain ⟨value, hv, h₂⟩ := of_bind_ok h₁
  obtain ⟨hkind, rfl⟩ := of_expect ht
  dsimp only at h₂
  split at h₂
  · cases h₂
  · cases h₂
    exact ⟨t, rfl, hkind, hv, by omega⟩

/-- What is assigned to a whole array. -/
theorem spelled_arrayValue {x a : Token} {st : Stmt} (hx : x.kind = .name)
    (harray : x.text ∈ c.arrays) (ha : a.kind = .assign) (hread : c.arrayValue x ts = (st, rest))
    (hwhole : st.isWhole = true) :
    (∃ us, x :: a :: ts = us ++ rest ∧ st.Spelled c.arrays .single us) ∧ st.endsOpen = false := by
  unfold arrayValue at hread
  split at hread
  · rename_i ts₁ hopen
    obtain ⟨l, hl, rfl⟩ := of_accept hopen
    split at hread
    · rename_i values ts₂ hlist
      obtain ⟨⟨values', ts₃⟩, hvalues, hlist⟩ := of_bind_ok hlist
      obtain ⟨⟨r, ts₄⟩, hclose, hlist⟩ := of_bind_ok hlist
      cases hlist
      cases hread
      obtain ⟨us, rfl, hus⟩ := of_numbers hvalues
      obtain ⟨hr, rfl⟩ := of_expect hclose
      exact ⟨⟨x :: a :: l :: (us ++ [r]), by simp, .fillList hx harray ha hl hus hr⟩, rfl⟩
    · cases hread; cases hwhole
  · split at hread
    · rename_i t ts₁ hnext
      obtain ⟨hkind, rfl⟩ := of_expectAny hnext
      cases hread
      split
      · rename_i hname
        exact ⟨⟨[x, a, t], rfl, .copyArray hx harray ha (eq_of_beq hname)⟩, rfl⟩
      · rename_i hname
        refine ⟨⟨[x, a, t], rfl, .fillText hx harray ha ?_⟩, rfl⟩
        simpa [hname] using hkind
    · cases hread; cases hwhole

theorem spelled_assignment {x : Token} {st : Stmt} (hx : x.kind = .name)
    (hread : c.assignment x ts = (st, rest)) (hwhole : st.isWhole = true) :
    (∃ us, x :: ts = us ++ rest ∧ st.Spelled c.arrays .single us) ∧ st.endsOpen = false := by
  unfold assignment at hread
  split at hread
  · rename_i harray
    have harray : x.text ∈ c.arrays := by simpa using harray
    split at hread
    · rename_i ts₁ hopen
      obtain ⟨l, hl, rfl⟩ := of_accept hopen
      rcases hindex : c.expr ts₁ with ⟨index, ts₂⟩
      simp only [hindex] at hread
      split at hread
      · rename_i ts₃ hsigns
        obtain ⟨⟨r, ts₄⟩, hclose, hsigns⟩ := of_bind_ok hsigns
        obtain ⟨⟨a, ts₅⟩, hassign, hsigns⟩ := of_bind_ok hsigns
        cases hsigns
        obtain ⟨hr, rfl⟩ := of_expect hclose
        obtain ⟨ha, rfl⟩ := of_expect hassign
        rcases hvalue : c.expr ts₅ with ⟨value, ts₆⟩
        simp only [hvalue] at hread
        cases hread
        obtain ⟨hi, hv⟩ := Bool.and_eq_true_iff.1 hwhole
        obtain ⟨us, rfl, hus⟩ := readsExpr_expr c hindex hi
        obtain ⟨us', rfl, hus'⟩ := readsExpr_expr c hvalue hv
        exact ⟨⟨x :: l :: (us ++ r :: a :: us'), by simp,
          .setElement hx harray hl hus hr ha hus'⟩, rfl⟩
      · cases hread
        cases (Bool.and_eq_true_iff.1 hwhole).2
    · split at hread
      · rename_i a ts₁ hassign
        obtain ⟨ha, rfl⟩ := of_expect hassign
        exact spelled_arrayValue hx harray ha hread hwhole
      · cases hread; cases hwhole
  · rename_i hscalar
    split at hread
    · rename_i a ts₁ hassign
      obtain ⟨ha, rfl⟩ := of_expect hassign
      rcases hvalue : c.expr ts₁ with ⟨value, ts₂⟩
      simp only [hvalue] at hread
      cases hread
      obtain ⟨us, rfl, hus⟩ := readsExpr_expr c hvalue hwhole
      exact ⟨⟨x :: a :: us, rfl, .assign hx (by simpa using hscalar) ha hus⟩, rfl⟩
    · cases hread; cases hwhole

/-- Statements up to a closing word. -/
theorem ReadsStmt.statements {arrays : List String} {sub : Reader Stmt} (h : ReadsStmt arrays sub)
    {stop : Kind} {count : Nat} {st : Stmt} (hread : Context.statements sub stop count ts = (st, rest))
    (hwhole : st.isWhole = true) : ∃ us, ts = us ++ rest ∧ st.Spelled arrays .list us := by
  induction count generalizing ts st with
  | zero =>
    cases hread
    exact ⟨[], rfl, .none⟩
  | succ count ih =>
    rw [Context.statements] at hread
    split at hread
    · cases hread
      exact ⟨[], rfl, .none⟩
    · split at hread
      · rename_i ts₁ hgap
        obtain ⟨t, ht, rfl⟩ := of_accept hgap
        obtain ⟨us, rfl, hus⟩ := ih hread hwhole
        exact ⟨t :: us, rfl, .gap ht hus⟩
      · rcases hfirst : sub ts with ⟨first, ts₁⟩
        simp only [hfirst] at hread
        split at hread
        · rename_i ts₂ hsemicolon
          obtain ⟨t, ht, rfl⟩ := of_accept hsemicolon
          rcases hrest : Context.statements sub stop count ts₂ with ⟨more, ts₃⟩
          simp only [hrest] at hread
          cases hread
          obtain ⟨hf, hr⟩ := Bool.and_eq_true_iff.1 hwhole
          obtain ⟨us, rfl, hus⟩ := (h hfirst hf).1
          obtain ⟨us', rfl, hus'⟩ := ih hrest hr
          exact ⟨us ++ t :: us', by simp, .more hus ht hus'⟩
        · cases hread
          obtain ⟨us, rfl, hus⟩ := (h hfirst (Bool.and_eq_true_iff.1 hwhole).1).1
          exact ⟨us, rfl, .last hus⟩

theorem ReadsStmt.compound {sub : Reader Stmt} (h : ReadsStmt c.arrays sub) {b : Token} {st : Stmt}
    (hb : b.kind = .kwBegin) (hread : c.compound sub ts = (st, rest)) (hwhole : st.isWhole = true) :
    (∃ us, b :: ts = us ++ rest ∧ st.Spelled c.arrays .single us) ∧ st.endsOpen = false := by
  rcases hbody : Context.statements sub .kwEnd (ts.length + 1) ts with ⟨body, ts₁⟩
  rcases hgate : c.gate .kwEnd ts₁ with ⟨close, ts₂⟩
  simp only [Context.compound, hbody, hgate] at hread
  cases hread
  obtain ⟨hw, hclose⟩ := Bool.and_eq_true_iff.1 hwhole
  obtain rfl := eq_of_beq hclose
  obtain ⟨us, rfl, hus⟩ := h.statements hbody hw
  obtain ⟨e, he, rfl⟩ := of_gate hgate
  exact ⟨⟨b :: (us ++ [e]), by simp, .block hb hus he⟩, rfl⟩

theorem spelled_inlineAsm {t : Token} {st : Stmt} (ht : t.kind = .kwAsm)
    (hread : c.inlineAsm ts = (st, rest)) (hwhole : st.isWhole = true) :
    (∃ us, t :: ts = us ++ rest ∧ st.Spelled c.arrays .single us) ∧ st.endsOpen = false := by
  rcases hspan : ts.span (·.kind == .asmLine) with ⟨lines, ts₁⟩
  rcases hgate : c.gate .kwEnd ts₁ with ⟨close, ts₂⟩
  simp only [inlineAsm, hspan, hgate] at hread
  cases hread
  obtain rfl := eq_of_beq hwhole
  obtain ⟨e, he, rfl⟩ := of_gate hgate
  rw [List.span_eq_takeWhile_dropWhile, Prod.mk.injEq] at hspan
  obtain ⟨rfl, hdrop⟩ := hspan
  refine ⟨⟨t :: (ts.takeWhile (·.kind == .asmLine) ++ [e]), ?_, .asm ht (fun l hl => ?_) he⟩, rfl⟩
  · rw [List.cons_append, List.append_assoc, List.singleton_append, ← hdrop,
      List.takeWhile_append_dropWhile]
  · have := List.mem_takeWhile_imp hl
    exact eq_of_beq this

theorem ReadsStmt.conditional {sub : Reader Stmt} (h : ReadsStmt c.arrays sub) {i : Token}
    {st : Stmt} (hi : i.kind = .kwIf) (hread : c.conditional sub ts = (st, rest))
    (hwhole : st.isWhole = true) : (∃ us, i :: ts = us ++ rest ∧ st.Spelled c.arrays .single us)
      ∧ (st.endsOpen = true → nextIs .kwElse rest = false) := by
  rcases htest : c.cond ts with ⟨test, ts₁⟩
  rcases hgate : c.gate .kwThen ts₁ with ⟨gate, ts₂⟩
  rcases hyes : sub ts₂ with ⟨yes, ts₃⟩
  simp only [Context.conditional, htest, hgate, hyes] at hread
  split at hread
  · rename_i ts₄ helse
    obtain ⟨e, he, rfl⟩ := of_accept helse
    rcases hno : sub ts₄ with ⟨no, ts₅⟩
    simp only [hno] at hread
    cases hread
    obtain ⟨hw, hwn⟩ := Bool.and_eq_true_iff.1 hwhole
    obtain ⟨hw, hwy⟩ := Bool.and_eq_true_iff.1 hw
    obtain ⟨hwt, hpass⟩ := Bool.and_eq_true_iff.1 hw
    obtain rfl := eq_of_beq hpass
    obtain ⟨us, rfl, hus⟩ := readsCond_cond c htest hwt
    obtain ⟨t, ht, rfl⟩ := of_gate hgate
    obtain ⟨⟨us₁, rfl, hus₁⟩, hopen⟩ := h hyes hwy
    obtain ⟨⟨us₂, rfl, hus₂⟩, hopen₂⟩ := h hno hwn
    have hclosed : yes.endsOpen = false := by
      by_contra hne
      have := hopen (by simpa using hne)
      simp [nextIs, nextKind?, he] at this
    exact ⟨⟨i :: (us ++ t :: (us₁ ++ e :: us₂)), by simp,
      .ifElse hi hus ht hus₁ hclosed he hus₂⟩, hopen₂⟩
  · rename_i helse
    cases hread
    obtain ⟨hw, hwy⟩ := Bool.and_eq_true_iff.1 hwhole
    obtain ⟨hwt, hpass⟩ := Bool.and_eq_true_iff.1 hw
    obtain rfl := eq_of_beq hpass
    obtain ⟨us, rfl, hus⟩ := readsCond_cond c htest hwt
    obtain ⟨t, ht, rfl⟩ := of_gate hgate
    obtain ⟨⟨us₁, rfl, hus₁⟩, -⟩ := h hyes hwy
    exact ⟨⟨i :: (us ++ t :: us₁), by simp, .ifThen hi hus ht hus₁⟩, fun _ => nextIs_of_accept helse⟩

theorem ReadsStmt.whileLoop {sub : Reader Stmt} (h : ReadsStmt c.arrays sub) {t : Token}
    {st : Stmt} (ht : t.kind = .kwWhile) (hread : c.whileLoop sub ts = (st, rest))
    (hwhole : st.isWhole = true) : (∃ us, t :: ts = us ++ rest ∧ st.Spelled c.arrays .single us)
      ∧ (st.endsOpen = true → nextIs .kwElse rest = false) := by
  rcases htest : c.cond ts with ⟨test, ts₁⟩
  rcases hgate : c.gate .kwDo ts₁ with ⟨gate, ts₂⟩
  rcases hbody : sub ts₂ with ⟨body, ts₃⟩
  simp only [Context.whileLoop, htest, hgate, hbody] at hread
  cases hread
  obtain ⟨hw, hwb⟩ := Bool.and_eq_true_iff.1 hwhole
  obtain ⟨hwt, hpass⟩ := Bool.and_eq_true_iff.1 hw
  obtain rfl := eq_of_beq hpass
  obtain ⟨us, rfl, hus⟩ := readsCond_cond c htest hwt
  obtain ⟨d, hd, rfl⟩ := of_gate hgate
  obtain ⟨⟨us₁, rfl, hus₁⟩, hopen⟩ := h hbody hwb
  exact ⟨⟨t :: (us ++ d :: us₁), by simp, .whileDo ht hus hd hus₁⟩, hopen⟩

theorem ReadsStmt.repeatLoop {sub : Reader Stmt} (h : ReadsStmt c.arrays sub) {t : Token}
    {st : Stmt} (ht : t.kind = .kwRepeat) (hread : c.repeatLoop sub ts = (st, rest))
    (hwhole : st.isWhole = true) :
    (∃ us, t :: ts = us ++ rest ∧ st.Spelled c.arrays .single us) ∧ st.endsOpen = false := by
  rcases hbody : Context.statements sub .kwUntil (ts.length + 1) ts with ⟨body, ts₁⟩
  simp only [Context.repeatLoop, hbody] at hread
  split at hread
  · rename_i u ts₂ huntil
    rcases htest : c.cond ts₂ with ⟨test, ts₃⟩
    simp only [htest] at hread
    cases hread
    obtain ⟨hwb, hwt⟩ := Bool.and_eq_true_iff.1 hwhole
    obtain ⟨us, rfl, hus⟩ := h.statements hbody hwb
    obtain ⟨hu, rfl⟩ := of_expect huntil
    obtain ⟨us₁, rfl, hus₁⟩ := readsCond_cond c htest hwt
    exact ⟨⟨t :: (us ++ u :: us₁), by simp, .repeatUntil ht hus hu hus₁⟩, rfl⟩
  · cases hread
    cases (Bool.and_eq_true_iff.1 hwhole).2

theorem ReadsStmt.countedLoop {sub : Reader Stmt} (h : ReadsStmt c.arrays sub) {t x a : Token}
    {st : Stmt} (ht : t.kind = .kwFor) (hx : x.kind = .name) (ha : a.kind = .assign)
    (hread : c.countedLoop sub x ts = (st, rest)) (hwhole : st.isWhole = true) :
    (∃ us, t :: x :: a :: ts = us ++ rest ∧ st.Spelled c.arrays .single us)
      ∧ (st.endsOpen = true → nextIs .kwElse rest = false) := by
  rcases hfirst : c.expr ts with ⟨first, ts₁⟩
  simp only [Context.countedLoop, hfirst] at hread
  split at hread
  · rename_i d ts₂ hdirection
    rcases hlast : c.expr ts₂ with ⟨last, ts₃⟩
    rcases hgate : c.gate .kwDo ts₃ with ⟨gate, ts₄⟩
    rcases hbody : sub ts₄ with ⟨body, ts₅⟩
    simp only [hlast, hgate, hbody] at hread
    cases hread
    obtain ⟨hw, hwb⟩ := Bool.and_eq_true_iff.1 hwhole
    obtain ⟨hw, hpass⟩ := Bool.and_eq_true_iff.1 hw
    obtain ⟨hwf, hwl⟩ := Bool.and_eq_true_iff.1 hw
    obtain rfl := eq_of_beq hpass
    obtain ⟨us, rfl, hus⟩ := readsExpr_expr c hfirst hwf
    obtain ⟨hd, rfl⟩ := of_expectAny hdirection
    obtain ⟨us₁, rfl, hus₁⟩ := readsExpr_expr c hlast hwl
    obtain ⟨o, ho, rfl⟩ := of_gate hgate
    obtain ⟨⟨us₂, rfl, hus₂⟩, hopen⟩ := h hbody hwb
    have hword : d.kind = directionWord (d.kind == .kwDownto) := by
      obtain hto | hdown := Bool.or_eq_true_iff.1 hd
      · simp [directionWord, eq_of_beq hto]
      · simp [directionWord, eq_of_beq hdown]
    exact ⟨⟨t :: x :: a :: (us ++ d :: (us₁ ++ o :: us₂)), by simp,
      .forDo ht hx ha hus hword hus₁ ho hus₂⟩, hopen⟩
  · cases hread
    simp [Stmt.isWhole, Expr.isWhole] at hwhole

theorem ReadsStmt.forLoop {sub : Reader Stmt} (h : ReadsStmt c.arrays sub) {t : Token} {st : Stmt}
    (ht : t.kind = .kwFor) (hread : c.forLoop sub ts = (st, rest)) (hwhole : st.isWhole = true) :
    (∃ us, t :: ts = us ++ rest ∧ st.Spelled c.arrays .single us)
      ∧ (st.endsOpen = true → nextIs .kwElse rest = false) := by
  unfold Context.forLoop at hread
  split at hread
  · cases hread; cases hwhole
  · rename_i x ts₁ hname
    obtain ⟨hx, rfl⟩ := of_expect hname
    split at hread
    · rename_i a ts₂ hassign
      obtain ⟨ha, rfl⟩ := of_expect hassign
      exact h.countedLoop ht hx ha hread hwhole
    · cases hread; cases hwhole

theorem spelled_stepStmt (op : StepOp) {t : Token} {st : Stmt} (ht : t.kind = op.word)
    (hread : c.stepStmt op ts = (st, rest)) (hwhole : st.isWhole = true) :
    (∃ us, t :: ts = us ++ rest ∧ st.Spelled c.arrays .single us) ∧ st.endsOpen = false := by
  unfold stepStmt at hread
  split at hread
  · rename_i x ts₁ hname
    obtain ⟨hx, rfl⟩ := of_expect hname
    cases hread
    exact ⟨⟨[t, x], rfl, .step ht hx⟩, rfl⟩
  · cases hread; cases hwhole

theorem spelled_outputStmt {t : Token} {st : Stmt} (ht : t.kind = .kwOutp)
    (hread : c.outputStmt ts = (st, rest)) (hwhole : st.isWhole = true) :
    (∃ us, t :: ts = us ++ rest ∧ st.Spelled c.arrays .single us) ∧ st.endsOpen = false := by
  unfold outputStmt at hread
  split at hread
  · rename_i port ts₁ hsigns
    obtain ⟨⟨port', ts₂⟩, hport, hsigns⟩ := of_bind_ok hsigns
    obtain ⟨⟨comma, ts₃⟩, hcomma, hsigns⟩ := of_bind_ok hsigns
    cases hsigns
    rcases hvalue : c.expr ts₁ with ⟨value, ts₄⟩
    simp only [hvalue] at hread
    cases hread
    obtain ⟨n, rfl, hn⟩ := of_port hport
    obtain ⟨hc, rfl⟩ := of_expect hcomma
    obtain ⟨us, rfl, hus⟩ := readsExpr_expr c hvalue hwhole
    exact ⟨⟨t :: n :: comma :: us, rfl, .output ht hn hc hus⟩, rfl⟩
  · cases hread; cases hwhole

theorem spelled_inputStmt {t : Token} {st : Stmt} (ht : t.kind = .kwInp)
    (hread : c.inputStmt ts = (st, rest)) (hwhole : st.isWhole = true) :
    (∃ us, t :: ts = us ++ rest ∧ st.Spelled c.arrays .single us) ∧ st.endsOpen = false := by
  unfold inputStmt at hread
  split at hread
  · cases hread; cases hwhole
  · rename_i x ts₁ hname
    obtain ⟨hx, rfl⟩ := of_expect hname
    split at hread
    · rename_i port ts₂ hsigns
      obtain ⟨⟨comma, ts₃⟩, hcomma, hport⟩ := of_bind_ok hsigns
      cases hread
      obtain ⟨hc, rfl⟩ := of_expect hcomma
      obtain ⟨n, rfl, hn⟩ := of_port hport
      exact ⟨⟨[t, x, comma, n], rfl, .input ht hx hc hn⟩, rfl⟩
    · cases hread; cases hwhole

theorem spelled_callStmt {t : Token} {st : Stmt} (ht : t.kind = .kwCall)
    (hread : c.callStmt ts = (st, rest)) (hwhole : st.isWhole = true) :
    (∃ us, t :: ts = us ++ rest ∧ st.Spelled c.arrays .single us) ∧ st.endsOpen = false := by
  unfold callStmt at hread
  split at hread
  · rename_i p ts₁ hname
    obtain ⟨hp, rfl⟩ := of_expect hname
    cases hread
    exact ⟨⟨[t, p], rfl, .call ht hp⟩, rfl⟩
  · cases hread; cases hwhole

theorem ReadsStmt.statement {sub : Reader Stmt} (h : ReadsStmt c.arrays sub) :
    ReadsStmt c.arrays (c.statement sub) := by
  intro ts st rest hread hwhole
  -- A statement that cannot end in an open `if` leaves nothing to check.
  have hclosed : ∀ {P : Prop}, P ∧ st.endsOpen = false →
      P ∧ (st.endsOpen = true → nextIs .kwElse rest = false) := fun ⟨hP, hopen⟩ =>
    ⟨hP, fun hne => absurd (hopen.symm.trans hne) nofun⟩
  cases ts with
  | nil => cases hread; cases hwhole
  | cons t ts =>
    rw [Context.statement] at hread
    split at hread
    case h_1 ht => exact hclosed (spelled_assignment ht hread hwhole)
    case h_2 ht => exact hclosed (spelled_callStmt ht hread hwhole)
    case h_3 ht => exact hclosed (h.compound ht hread hwhole)
    case h_4 ht => exact hclosed (spelled_inlineAsm ht hread hwhole)
    case h_5 ht => exact h.conditional ht hread hwhole
    case h_6 ht => exact h.whileLoop ht hread hwhole
    case h_7 ht => exact hclosed (h.repeatLoop ht hread hwhole)
    case h_8 ht => exact h.forLoop ht hread hwhole
    case h_9 ht => exact hclosed (spelled_stepStmt .shr ht hread hwhole)
    case h_10 ht => exact hclosed (spelled_stepStmt .shl ht hread hwhole)
    case h_11 ht => exact hclosed (spelled_stepStmt .inc ht hread hwhole)
    case h_12 ht => exact hclosed (spelled_stepStmt .dec ht hread hwhole)
    case h_13 ht =>
      cases hread
      exact ⟨⟨[t], rfl, .nop ht⟩, nofun⟩
    case h_14 ht => exact hclosed (spelled_outputStmt ht hread hwhole)
    case h_15 ht => exact hclosed (spelled_inputStmt ht hread hwhole)
    case h_16 => cases hread; cases hwhole

theorem readsStmt_stmtWithin (c : Context) (depth : Nat) :
    ReadsStmt c.arrays (c.stmtWithin depth) := by
  induction depth with
  | zero =>
    intro ts st rest hread hwhole
    cases hread; cases hwhole
  | succ depth ih => exact ih.statement

theorem readsStmt_stmt (c : Context) : ReadsStmt c.arrays c.stmt :=
  fun ts _ _ hread => readsStmt_stmtWithin c ts.length hread

/-! ### Declarations -/

theorem of_names {count : Nat} {xs : List Token} (h : c.names count ts = .ok (xs, rest)) :
    ∃ us, ts = us ++ rest ∧ SpelledNames us xs := by
  induction count generalizing ts xs with
  | zero =>
    obtain ⟨⟨x, ts₁⟩, hname, h₁⟩ := of_bind_ok h
    cases h₁
    obtain ⟨hx, rfl⟩ := of_expect hname
    exact ⟨[x], rfl, .last hx⟩
  | succ count ih =>
    rw [names] at h
    obtain ⟨⟨x, ts₁⟩, hname, h₁⟩ := of_bind_ok h
    obtain ⟨hx, rfl⟩ := of_expect hname
    dsimp only at h₁
    split at h₁
    · rename_i ts₂ hcomma
      obtain ⟨comma, hc, rfl⟩ := of_accept hcomma
      obtain ⟨⟨more, ts₃⟩, hmore, h₂⟩ := of_bind_ok h₁
      cases h₂
      obtain ⟨us, rfl, hus⟩ := ih hmore
      exact ⟨x :: comma :: us, rfl, .more hx hc hus⟩
    · cases h₁
      exact ⟨[x], rfl, .last hx⟩

theorem of_constant (h : c.constant ts = .ok rest) :
    ∃ x eq n value, ts = x :: eq :: n :: rest ∧ x.kind = .name ∧ eq.kind = .eq ∧ n.kind = .number
      ∧ n.numberValue = .ok value := by
  obtain ⟨⟨x, ts₁⟩, hname, h₁⟩ := of_bind_ok h
  obtain ⟨⟨eq, ts₂⟩, hsign, h₂⟩ := of_bind_ok h₁
  obtain ⟨⟨value, ts₃⟩, hnumber, h₃⟩ := of_bind_ok h₂
  cases h₃
  obtain ⟨hx, rfl⟩ := of_expect hname
  obtain ⟨he, rfl⟩ := of_expect hsign
  obtain ⟨n, rfl, hn, hv⟩ := of_number hnumber
  exact ⟨x, eq, n, value, rfl, hx, he, hn, hv⟩

theorem of_lastConstant {ts₁ : List Token} (hconstant : c.constant ts = .ok ts₁)
    (hend : (do let (_, ts) ← c.expect .semicolon ts₁; return ts) = Except.ok rest) :
    ∃ us, ts = us ++ rest ∧ SpelledConstants us := by
  obtain ⟨⟨t, ts₂⟩, hsemicolon, hend⟩ := of_bind_ok hend
  cases hend
  obtain ⟨x, eq, n, value, rfl, hx, he, hn, hv⟩ := of_constant hconstant
  obtain ⟨ht, rfl⟩ := of_expect hsemicolon
  exact ⟨[x, eq, n, t], rfl, .last hx he hn hv ht⟩

theorem of_constants {count : Nat} (h : c.constants count ts = .ok rest) :
    ∃ us, ts = us ++ rest ∧ SpelledConstants us := by
  induction count generalizing ts with
  | zero =>
    obtain ⟨ts₁, hconstant, h₁⟩ := of_bind_ok h
    exact of_lastConstant hconstant h₁
  | succ count ih =>
    rw [constants] at h
    obtain ⟨ts₁, hconstant, h₁⟩ := of_bind_ok h
    split at h₁
    · rename_i ts₂ hcomma
      obtain ⟨x, eq, n, value, rfl, hx, he, hn, hv⟩ := of_constant hconstant
      obtain ⟨t, ht, rfl⟩ := of_accept hcomma
      obtain ⟨us, rfl, hus⟩ := ih h₁
      exact ⟨x :: eq :: n :: t :: us, rfl, .more hx he hn hv ht hus⟩
    · exact of_lastConstant hconstant h₁

theorem of_arrayLength {width : Width} {len : Option Nat}
    (h : c.arrayLength width ts = .ok (len, rest)) :
    ∃ us, ts = us ++ rest ∧ SpelledLength width us len := by
  unfold arrayLength at h
  split at h
  · cases h
    exact ⟨[], rfl, .scalar⟩
  · rename_i ts₁ hopen
    obtain ⟨⟨n, ts₂⟩, hnumber, h₁⟩ := of_bind_ok h
    obtain ⟨value, hv, h₂⟩ := of_bind_ok h₁
    obtain ⟨⟨r, ts₃⟩, hclose, h₃⟩ := of_bind_ok h₂
    obtain ⟨l, hl, rfl⟩ := of_accept hopen
    obtain ⟨hn, rfl⟩ := of_expect hnumber
    obtain ⟨hr, rfl⟩ := of_expect hclose
    dsimp only at h₃
    split at h₃
    · cases h₃
    · rename_i hzero
      split at h₃
      · cases h₃
      · rename_i hlarge
        cases h₃
        exact ⟨[l, n, r], rfl, .array hl hn hv hr (by simpa [Nat.pos_iff_ne_zero] using hzero)
          (by simpa using hlarge)⟩

theorem keyword_of_ofKeyword {name : String} {width : Width}
    (h : Width.ofKeyword? name = some width) : name = width.keyword := by
  have := List.find?_some h
  exact (eq_of_beq this).symm

theorem of_declaration {ds : List Declared} (h : c.declaration ts = .ok (ds, rest)) :
    ∃ us, ts = us ++ rest ∧ SpelledDeclaration us ds := by
  unfold declaration at h
  obtain ⟨⟨xs, ts₁⟩, hnames, h₁⟩ := of_bind_ok h
  obtain ⟨⟨colon, ts₂⟩, hcolon, h₂⟩ := of_bind_ok h₁
  obtain ⟨⟨t, ts₃⟩, htype, h₃⟩ := of_bind_ok h₂
  dsimp only at h₃
  split at h₃
  · cases h₃
  · rename_i width hwidth
    obtain ⟨⟨len, ts₄⟩, hlen, h₄⟩ := of_bind_ok h₃
    cases h₄
    obtain ⟨us, rfl, hus⟩ := of_names hnames
    obtain ⟨hc, rfl⟩ := of_expect hcolon
    obtain ⟨ht, rfl⟩ := of_expect htype
    obtain ⟨us', rfl, hus'⟩ := of_arrayLength hlen
    exact ⟨us ++ colon :: t :: us', by simp, .mk hus hc ht (keyword_of_ofKeyword hwidth) hus'⟩

theorem of_varSection {count : Nat} {ds : List Declared}
    (h : c.varSection count ts = (ds, .ok rest)) :
    ∃ us, ts = us ++ rest ∧ SpelledVariables us ds := by
  induction count generalizing ts ds with
  | zero => cases h
  | succ count ih =>
    rw [varSection] at h
    split at h
    · cases h
    · rename_i ds₁ ts₁ hdeclaration
      obtain ⟨us, rfl, hus⟩ := of_declaration hdeclaration
      have hmore : ∀ {t : Token} {ts₂ : List Token}, ts₁ = t :: ts₂ →
          t.kind = .comma ∨ t.kind = .semicolon →
          (ds₁ ++ (c.varSection count ts₂).1, (c.varSection count ts₂).2) = (ds, .ok rest) →
          ∃ us', us ++ ts₁ = us' ++ rest ∧ SpelledVariables us' ds := by
        rintro t ts₂ rfl ht hread
        rcases hrest : c.varSection count ts₂ with ⟨ds₂, rest'⟩
        rw [hrest] at hread
        cases hread
        obtain ⟨us', rfl, hus'⟩ := ih hrest
        exact ⟨us ++ t :: us', by simp, .more hus ht hus'⟩
      split at h
      · rename_i ts₂ hcomma
        obtain ⟨t, ht, hts⟩ := of_accept hcomma
        exact hmore hts (.inl ht) h
      · split at h
        · cases h
        · rename_i t ts₂ hsemicolon
          obtain ⟨ht, hts⟩ := of_expect hsemicolon
          split at h
          · exact hmore hts (.inr ht) h
          · cases h
            exact ⟨us ++ [t], by simp [hts], .last hus ht⟩

theorem of_heading {p : Token} (h : c.heading ts = .ok (p, rest)) :
    ∃ s, ts = p :: s :: rest ∧ p.kind = .name ∧ s.kind = .semicolon := by
  obtain ⟨⟨p', ts₁⟩, hname, h₁⟩ := of_bind_ok h
  obtain ⟨⟨s, ts₂⟩, hsemicolon, h₂⟩ := of_bind_ok h₁
  cases h₂
  obtain ⟨hp, rfl⟩ := of_expect hname
  obtain ⟨hs, rfl⟩ := of_expect hsemicolon
  exact ⟨s, rfl, hp, hs⟩

theorem isWhole_declareAll (ds : List Declared) (b : Block) :
    (declareAll ds b).isWhole = b.isWhole := by
  induction ds with
  | nil => rfl
  | cons d ds ih => exact ih

theorem spelled_code {b : Block} (hread : (let (s, ts) := c.stmt ts; (Block.code s, ts)) = (b, rest))
    (hwhole : b.isWhole = true) : ∃ us, ts = us ++ rest ∧ b.Spelled c.arrays us := by
  rcases hstmt : c.stmt ts with ⟨st, ts₁⟩
  simp only [hstmt] at hread
  cases hread
  obtain ⟨us, rfl, hus⟩ := (readsStmt_stmt c hstmt hwhole).1
  exact ⟨us, rfl, .code hus⟩

theorem spelled_blockWithin {count : Nat} {b : Block}
    (hread : blockWithin count c ts = (b, rest)) (hwhole : b.isWhole = true) :
    ∃ us, ts = us ++ rest ∧ b.Spelled c.arrays us := by
  induction count generalizing c ts b rest with
  | zero => exact spelled_code hread hwhole
  | succ count ih =>
    rw [blockWithin] at hread
    split at hread
    case h_1 hkind =>
      obtain ⟨t, ts₁, ht, rfl⟩ := of_nextIs (beq_iff_eq.2 hkind)
      split at hread
      · rename_i ts₂ hconstants
        obtain ⟨us, hus, hs⟩ := of_constants hconstants
        obtain ⟨us', rfl, hb⟩ := ih hread hwhole
        exact ⟨t :: (us ++ us'), by simpa using hus, .constants ht hs hb⟩
      · cases hread; cases hwhole
    case h_2 hkind =>
      obtain ⟨t, ts₁, ht, rfl⟩ := of_nextIs (beq_iff_eq.2 hkind)
      rcases hvariables : c.varSection (t :: ts₁).length ts₁ with ⟨ds, outcome⟩
      simp only [List.tail_cons, hvariables] at hread
      split at hread
      · rename_i ts₂
        rcases hblock : blockWithin count (c.declare ds) ts₂ with ⟨b₁, ts₃⟩
        simp only [hblock] at hread
        cases hread
        obtain ⟨us, rfl, hs⟩ := of_varSection hvariables
        obtain ⟨us', rfl, hb⟩ := ih hblock ((isWhole_declareAll ..).symm.trans hwhole)
        exact ⟨t :: (us ++ us'), by simp, .vars ht hs hb⟩
      · cases hread
        cases (isWhole_declareAll ..).symm.trans hwhole
    case h_3 hkind =>
      obtain ⟨t, ts₁, ht, rfl⟩ := of_nextIs (beq_iff_eq.2 hkind)
      split at hread
      · rename_i p ts₂ hheading
        obtain ⟨s, hts, hp, hs⟩ := of_heading hheading
        rcases hbody : blockWithin count c ts₂ with ⟨body, ts₃⟩
        rcases hgate : c.gate .semicolon ts₃ with ⟨close, ts₄⟩
        rcases hmore : blockWithin count c ts₄ with ⟨more, ts₅⟩
        simp only [hbody, hgate, hmore] at hread
        cases hread
        obtain ⟨hw, hwr⟩ := Bool.and_eq_true_iff.1 hwhole
        obtain ⟨hwb, hpass⟩ := Bool.and_eq_true_iff.1 hw
        obtain rfl := eq_of_beq hpass
        obtain ⟨us, rfl, hb⟩ := ih hbody hwb
        obtain ⟨s', hs', rfl⟩ := of_gate hgate
        obtain ⟨us', rfl, hr⟩ := ih hmore hwr
        exact ⟨t :: p :: s :: (us ++ s' :: us'), by simpa using hts,
          .procedure ht hp hs hb hs' hr⟩
      · cases hread; cases hwhole
    case h_4 => exact spelled_code hread hwhole

end Context

/-- A program without faults is spelled by the tokens that it was read from. -/
theorem Program.spelled_ofTokens {file : String} {tokens : List Token}
    (hblock : (ofTokens file tokens).block.isWhole = true)
    (hclose : (ofTokens file tokens).close = .passed) :
    (ofTokens file tokens).Spelled tokens := by
  let ts := tokens.filter (!·.isIgnorable)
  let c : Context := { finish := endOfTokens file ts }
  rcases hread : Context.blockWithin ts.length c ts with ⟨b, rest⟩
  rcases hgate : c.gate .period rest with ⟨close, rest'⟩
  have hp : ofTokens file tokens = ⟨b, close⟩ := by
    simp only [ts, c] at hread hgate
    simp only [ofTokens, hread, hgate]
  rw [hp] at hblock hclose ⊢
  obtain rfl : close = .passed := hclose
  obtain ⟨us, hus, hb⟩ := Context.spelled_blockWithin hread hblock
  obtain ⟨period, hp, rfl⟩ := Context.of_gate hgate
  exact .mk hus hb hp

end NibblePascal
