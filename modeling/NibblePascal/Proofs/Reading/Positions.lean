import Mathlib.Data.List.TakeDrop
import NibblePascal.Program.Reader
import NibblePascal.Proofs.Except

/-!
# Positions in trees

A reader makes up no positions: those in a tree, and those of its faults, are positions of tokens
or of the end.

* `Fault.IsAt P`, `Expr.IsAt P` and so on: all positions satisfy `P`;
* `Program.isAt_ofTokens`: they do if those of the tokens do, and that of the end.
-/

namespace NibblePascal

/-! ### Trees -/

/-- A fault of the text or of the memory at a position with a property. -/
def Fault.IsAt (P : Pos → Prop) : Fault → Prop
  | source pos _ | memory pos _ => P pos
  | _ => False

/-- If something is wrong, it is at a position with the property. -/
def Gate.IsAt (P : Pos → Prop) : Gate → Prop
  | passed => True
  | blocked why => why.IsAt P

/-- All positions of an expression have the property. -/
def Expr.IsAt (P : Pos → Prop) : Expr → Prop
  | fault why => why.IsAt P
  | scalar x => P x.pos
  | literal pos _ | negLiteral pos _ => P pos
  | element arr index close => P arr.pos ∧ index.IsAt P ∧ close.IsAt P
  | half pos _ x close => P pos ∧ P x.pos ∧ close.IsAt P
  | paren e close => e.IsAt P ∧ close.IsAt P
  | negate e => e.IsAt P
  | binary _ lhs rhs => lhs.IsAt P ∧ rhs.IsAt P

/-- All positions of a condition have the property. -/
def Cond.IsAt (P : Pos → Prop) : Cond → Prop
  | fault why => why.IsAt P
  | compare lhs _ rhs => lhs.IsAt P ∧ rhs.IsAt P
  | nonzero e | odd e => e.IsAt P
  | group c close => c.IsAt P ∧ close.IsAt P
  | and lhs rhs | or lhs rhs => lhs.IsAt P ∧ rhs.IsAt P

/-- All positions of a statement have the property. -/
def Stmt.IsAt (P : Pos → Prop) : Stmt → Prop
  | fault why => why.IsAt P
  | skip | nop => True
  | seq first rest => first.IsAt P ∧ rest.IsAt P
  | block body close => body.IsAt P ∧ close.IsAt P
  | assign x value => P x.pos ∧ value.IsAt P
  | setElement arr index value => P arr.pos ∧ index.IsAt P ∧ value.IsAt P
  | fillList arr _ => P arr.pos
  | fillText arr text => P arr.pos ∧ P text.pos
  | copyArray dst src => P dst.pos ∧ P src.pos
  | call p => P p.pos
  | asm lines close => (∀ t ∈ lines, P t.pos) ∧ close.IsAt P
  | ifThen c gate yes => c.IsAt P ∧ gate.IsAt P ∧ yes.IsAt P
  | ifElse c gate yes no => c.IsAt P ∧ gate.IsAt P ∧ yes.IsAt P ∧ no.IsAt P
  | whileDo c gate body => c.IsAt P ∧ gate.IsAt P ∧ body.IsAt P
  | repeatUntil body c => body.IsAt P ∧ c.IsAt P
  | forDo x _ first last gate body =>
      P x.pos ∧ first.IsAt P ∧ last.IsAt P ∧ gate.IsAt P ∧ body.IsAt P
  | step _ x => P x.pos
  | output _ value => value.IsAt P
  | input x gate _ => P x.pos ∧ gate.IsAt P

/-- All positions of a block have the property. -/
def Block.IsAt (P : Pos → Prop) : Block → Prop
  | fault why => why.IsAt P
  | code s => s.IsAt P
  | declare x _ _ rest => P x.pos ∧ rest.IsAt P
  | procedure p body close rest => P p.pos ∧ body.IsAt P ∧ close.IsAt P ∧ rest.IsAt P

/-- All positions of a program have the property. -/
def Program.IsAt (P : Pos → Prop) (p : Program) : Prop := p.block.IsAt P ∧ p.close.IsAt P

namespace Context

/-! ### Outcomes of readers -/

variable {P : Pos → Prop} {α β : Type} {A : α → Prop} {B : β → Prop}

/-- All tokens are at positions with the property. -/
abbrev TokensAt (P : Pos → Prop) (ts : List Token) : Prop := ∀ t ∈ ts, P t.pos

/-- What was read satisfies `A`, and the tokens after it are at positions with the property. -/
def Taken (P : Pos → Prop) (A : α → Prop) (r : α × List Token) : Prop := A r.1 ∧ TokensAt P r.2

/-- What was read satisfies `A`, or the fault is at a position with the property. -/
def Answered (P : Pos → Prop) (A : α → Prop) : Except Fault α → Prop
  | .ok a => A a
  | .error why => why.IsAt P

theorem Answered.bind {x : Except Fault α} {f : α → Except Fault β} (hx : Answered P A x)
    (hf : ∀ a, A a → Answered P B (f a)) : Answered P B (x >>= f) := by
  cases x with
  | error why => exact hx
  | ok a => exact hf a hx

/-- One of the two. -/
theorem Answered.cases {x : Except Fault α} (h : Answered P A x) :
    (∃ a, x = .ok a ∧ A a) ∨ ∃ why, x = .error why ∧ why.IsAt P := by
  cases x with
  | error why => exact .inr ⟨why, rfl, h⟩
  | ok a => exact .inl ⟨a, rfl, h⟩

/-- A reader that makes up no positions. -/
def Reader.Reads (P : Pos → Prop) (A : α → Prop) (r : Reader α) : Prop :=
  ∀ ts, TokensAt P ts → Taken P A (r ts)

theorem TokensAt.nil : TokensAt P [] := nofun

theorem TokensAt.tail {ts : List Token} (h : TokensAt P ts) : TokensAt P ts.tail :=
  fun t ht => h t (List.mem_of_mem_tail ht)

variable {c : Context} {ts ts' : List Token}

theorem accept_tokensAt {kind : Kind} (hts : TokensAt P ts) (h : accept kind ts = some ts') :
    TokensAt P ts' := by
  unfold accept at h
  split at h
  · cases h
    exact hts.tail
  · cases h

theorem numberValue_answered {t : Token} (ht : P t.pos) :
    Answered P (fun _ => True) t.numberValue := by
  unfold Token.numberValue
  split
  · trivial
  · exact ht

theorem chain_reads {op? : Kind → Option BinaryOp} {operand : Reader Expr}
    (hoperand : operand.Reads P (Expr.IsAt P)) (count : Nat) {lhs : Expr} (hlhs : lhs.IsAt P) :
    (chain op? operand count lhs).Reads P (Expr.IsAt P) := by
  induction count generalizing lhs with
  | zero => exact fun ts hts => ⟨hlhs, hts⟩
  | succ count ih =>
    intro ts hts
    rw [chain]
    split
    · exact ⟨hlhs, hts⟩
    · rename_i op _
      have hrhs := hoperand _ hts.tail
      have hboth : (Expr.binary op lhs (operand ts.tail).1).IsAt P := ⟨hlhs, hrhs.1⟩
      exact ih hboth _ hrhs.2

theorem joined_reads {word : Kind} {join : Cond → Cond → Cond} {operand : Reader Cond}
    (hjoin : ∀ lhs rhs, lhs.IsAt P → rhs.IsAt P → (join lhs rhs).IsAt P)
    (hoperand : operand.Reads P (Cond.IsAt P)) (count : Nat) :
    (joined word join operand count).Reads P (Cond.IsAt P) := by
  induction count with
  | zero => exact hoperand
  | succ count ih =>
    intro ts hts
    have hlhs := hoperand ts hts
    rw [joined]
    dsimp only
    split
    · exact hlhs
    · rename_i ts' hword
      have hrhs := ih ts' (accept_tokensAt hlhs.2 hword)
      exact ⟨hjoin _ _ hlhs.1 hrhs.1, hrhs.2⟩

theorem statements_reads {sub : Reader Stmt} (hsub : sub.Reads P (Stmt.IsAt P)) (stop : Kind)
    (count : Nat) : (statements sub stop count).Reads P (Stmt.IsAt P) := by
  induction count with
  | zero => exact fun ts hts => ⟨trivial, hts⟩
  | succ count ih =>
    intro ts hts
    rw [statements]
    split
    · exact ⟨trivial, hts⟩
    · split
      · rename_i ts' hsemi
        exact ih ts' (accept_tokensAt hts hsemi)
      · have hfirst := hsub ts hts
        dsimp only
        split
        · rename_i ts' hsemi
          have hrest := ih ts' (accept_tokensAt hfirst.2 hsemi)
          exact ⟨⟨hfirst.1, hrest.1⟩, hrest.2⟩
        · exact ⟨⟨hfirst.1, trivial⟩, hfirst.2⟩

/-! ### Tokens -/

section

variable (hc : P c.finish)

include hc

theorem here_isAt (hts : TokensAt P ts) : P (c.here ts) := by
  cases ts with
  | nil => exact hc
  | cons t ts => exact hts t (.head _)

theorem unexpected_isAt (hts : TokensAt P ts) : (c.unexpected ts).IsAt P := by
  cases ts with
  | nil => exact hc
  | cons t ts => exact hts t (.head _)

theorem expectAny_answered (accepts : Kind → Bool) (hts : TokensAt P ts) :
    Answered P (Taken P fun t => P t.pos) (c.expectAny accepts ts) := by
  unfold expectAny
  split
  · split
    · exact ⟨hts _ (.head _), hts.tail⟩
    · exact unexpected_isAt hc hts
  · exact unexpected_isAt hc hts

theorem expect_answered (kind : Kind) (hts : TokensAt P ts) :
    Answered P (Taken P fun t => P t.pos) (c.expect kind ts) :=
  expectAny_answered hc _ hts

theorem gate_taken (kind : Kind) (hts : TokensAt P ts) :
    Taken P (Gate.IsAt P) (c.gate kind ts) := by
  unfold gate
  obtain ⟨⟨t, rest⟩, heq, h⟩ | ⟨why, heq, h⟩ := (expect_answered hc kind hts).cases
  · rw [heq]
    exact ⟨trivial, h.2⟩
  · rw [heq]
    exact ⟨h, .nil⟩

/-! ### Expressions -/

/-- The two halves of a byte are read alike. -/
theorem half_taken {t : Token} (ht : P t.pos) (hts : TokensAt P ts) : Taken P (Expr.IsAt P)
    (match c.expect .lparen ts with
    | .error why => (.fault why, [])
    | .ok (_, ts) =>
        match c.expect .name ts with
        | .error why => (.fault why, [])
        | .ok (x, ts) =>
            let (close, ts) := c.gate .rparen ts
            (Expr.half t.pos (t.kind == .kwHi) x close, ts)) := by
  obtain ⟨⟨_, ts₁⟩, heq, hopen⟩ | ⟨why, heq, hwhy⟩ := (expect_answered hc .lparen hts).cases
  · rw [heq]
    obtain ⟨⟨x, ts₂⟩, heq', hx⟩ | ⟨why, heq', hwhy⟩ := (expect_answered hc .name hopen.2).cases
    · have hclose := gate_taken hc .rparen hx.2
      simp only [heq']
      exact ⟨⟨ht, hx.1, hclose.1⟩, hclose.2⟩
    · simp only [heq']
      exact ⟨hwhy, .nil⟩
  · rw [heq]
    exact ⟨hwhy, .nil⟩

theorem factor_reads {sub : Reader Expr} (hsub : sub.Reads P (Expr.IsAt P)) :
    Reader.Reads P (Expr.IsAt P) (c.factor sub) := by
  intro ts hts
  cases ts with
  | nil => exact ⟨unexpected_isAt hc .nil, .nil⟩
  | cons t ts =>
    have ht : P t.pos := hts t (.head _)
    have hts' : TokensAt P ts := hts.tail
    rw [factor]
    split
    · split
      · obtain ⟨⟨_, ts₁⟩, heq, hopen⟩ | ⟨why, heq, hwhy⟩ := (expect_answered hc .lbracket hts').cases
        · have hindex := hsub _ hopen.2
          have hclose := gate_taken hc .rbracket hindex.2
          rw [heq]
          exact ⟨⟨ht, hindex.1, hclose.1⟩, hclose.2⟩
        · rw [heq]
          exact ⟨hwhy, .nil⟩
      · exact ⟨ht, hts'⟩
    · obtain ⟨value, heq, -⟩ | ⟨why, heq, hwhy⟩ := (numberValue_answered ht).cases
      · rw [heq]
        exact ⟨ht, hts'⟩
      · rw [heq]
        exact ⟨hwhy, .nil⟩
    · have he := hsub _ hts'
      have hclose := gate_taken hc .rparen he.2
      exact ⟨⟨he.1, hclose.1⟩, hclose.2⟩
    · exact half_taken hc ht hts'
    · exact half_taken hc ht hts'
    · exact ⟨unexpected_isAt hc hts, .nil⟩

theorem term_reads {sub : Reader Expr} (hsub : sub.Reads P (Expr.IsAt P)) :
    Reader.Reads P (Expr.IsAt P) (c.term sub) := by
  intro ts hts
  have hfirst := factor_reads hc hsub ts hts
  exact chain_reads (factor_reads hc hsub) _ hfirst.1 _ hfirst.2

theorem negated_reads {sub : Reader Expr} (hsub : sub.Reads P (Expr.IsAt P)) :
    Reader.Reads P (Expr.IsAt P) (c.negated sub) := by
  intro ts hts
  have hproduct := term_reads hc hsub ts hts
  cases ts with
  | nil => exact hproduct
  | cons t rest =>
    have ht : P t.pos := hts t (.head _)
    unfold negated
    dsimp only
    split
    · obtain ⟨value, heq, -⟩ | ⟨why, heq, hwhy⟩ := (numberValue_answered ht).cases
      · rw [heq]
        dsimp only
        split
        · exact ⟨ht, .nil⟩
        · split
          · exact ⟨ht, hts.tail⟩
          · exact hproduct
      · rw [heq]
        exact ⟨hwhy, .nil⟩
    · exact hproduct

/-- The first term of a sum, with its sign. -/
theorem signed_taken {sub : Reader Expr} (hsub : sub.Reads P (Expr.IsAt P)) (hts : TokensAt P ts) :
    Taken P (Expr.IsAt P)
      (match nextOp? sumOp? ts with
      | some .sub => c.negated sub ts.tail
      | some _ => c.term sub ts.tail
      | none => c.term sub ts) := by
  split
  · exact negated_reads hc hsub _ hts.tail
  · exact term_reads hc hsub _ hts.tail
  · exact term_reads hc hsub _ hts

theorem sum_reads {sub : Reader Expr} (hsub : sub.Reads P (Expr.IsAt P)) :
    Reader.Reads P (Expr.IsAt P) (c.sum sub) := by
  intro ts hts
  have hfirst := signed_taken hc hsub hts
  exact chain_reads (term_reads hc hsub) _ hfirst.1 _ hfirst.2

theorem exprWithin_reads (depth : Nat) : (c.exprWithin depth).Reads P (Expr.IsAt P) := by
  induction depth with
  | zero => exact fun ts hts => ⟨unexpected_isAt hc hts, .nil⟩
  | succ depth ih => exact sum_reads hc ih

theorem expr_reads : (c.expr).Reads P (Expr.IsAt P) :=
  fun ts hts => exprWithin_reads hc ts.length ts hts

/-! ### Conditions -/

theorem comparison_reads : (c.comparison).Reads P (Cond.IsAt P) := by
  intro ts hts
  have hlhs := expr_reads hc ts hts
  unfold comparison
  dsimp only
  split
  · exact ⟨⟨hlhs.1, here_isAt hc hlhs.2⟩, .nil⟩
  · split
    · exact ⟨hlhs.1, hlhs.2.tail.tail⟩
    · have hrhs := expr_reads hc _ hlhs.2.tail
      exact ⟨⟨hlhs.1, hrhs.1⟩, hrhs.2⟩

theorem simple_reads {sub : Reader Cond} (hsub : sub.Reads P (Cond.IsAt P)) :
    (c.simple sub).Reads P (Cond.IsAt P) := by
  intro ts hts
  unfold simple
  split
  · rename_i ts' hopen
    have hinner := hsub ts' (accept_tokensAt hts hopen)
    have hclose := gate_taken hc .rcurly hinner.2
    exact ⟨⟨hinner.1, hclose.1⟩, hclose.2⟩
  · split
    · rename_i ts' hodd
      exact expr_reads hc ts' (accept_tokensAt hts hodd)
    · exact comparison_reads hc ts hts

theorem condWithin_reads (depth : Nat) : (c.condWithin depth).Reads P (Cond.IsAt P) := by
  induction depth with
  | zero => exact fun ts hts => ⟨unexpected_isAt hc hts, .nil⟩
  | succ depth ih =>
    refine fun ts => joined_reads (fun _ _ => And.intro) ?_ ts.length ts
    exact fun ts => joined_reads (fun _ _ => And.intro) (simple_reads hc ih) ts.length ts

theorem cond_reads : (c.cond).Reads P (Cond.IsAt P) :=
  fun ts hts => condWithin_reads hc ts.length ts hts

/-! ### Statements -/

theorem number_answered (hts : TokensAt P ts) :
    Answered P (Taken P fun _ => True) (c.number ts) :=
  (expect_answered hc .number hts).bind fun _ ht =>
    (numberValue_answered ht.1).bind fun _ _ => ⟨trivial, ht.2⟩

theorem numbers_answered (count : Nat) (hts : TokensAt P ts) :
    Answered P (Taken P fun _ => True) (c.numbers count ts) := by
  induction count generalizing ts with
  | zero => exact (number_answered hc hts).bind fun _ h => ⟨trivial, h.2⟩
  | succ count ih =>
    refine (number_answered hc hts).bind fun ⟨value, ts₁⟩ h => ?_
    dsimp only
    split
    · rename_i ts₂ hcomma
      exact (ih (accept_tokensAt h.2 hcomma)).bind fun _ h => ⟨trivial, h.2⟩
    · exact ⟨trivial, h.2⟩

theorem port_answered (hts : TokensAt P ts) :
    Answered P (Taken P fun _ => True) (c.port ts) := by
  refine (expect_answered hc .number hts).bind fun ⟨t, ts₁⟩ ht => ?_
  refine (numberValue_answered ht.1).bind fun value _ => ?_
  dsimp only
  split
  · exact ht.1
  · exact ⟨trivial, ht.2⟩

/-- The numbers of a list and its end. -/
theorem list_answered (count : Nat) (hts : TokensAt P ts) :
    Answered P (Taken P fun _ => True) (do
      let (values, ts) ← c.numbers count ts
      let (_, ts) ← c.expect .rparen ts
      return (values, ts)) :=
  (numbers_answered hc count hts).bind fun _ h =>
    (expect_answered hc .rparen h.2).bind fun _ h => ⟨trivial, h.2⟩

theorem arrayValue_reads {arr : Token} (harr : P arr.pos) :
    (c.arrayValue arr).Reads P (Stmt.IsAt P) := by
  intro ts hts
  unfold arrayValue
  split
  · rename_i ts₁ hopen
    obtain ⟨⟨values, ts₂⟩, heq, h⟩ | ⟨why, heq, hwhy⟩ :=
      (list_answered hc ts₁.length (accept_tokensAt hts hopen)).cases
    · rw [heq]
      exact ⟨harr, h.2⟩
    · rw [heq]
      exact ⟨hwhy, .nil⟩
  · obtain ⟨⟨t, ts₁⟩, heq, h⟩ | ⟨why, heq, hwhy⟩ := (expectAny_answered hc
      (fun k => k == .name || k == .text || k == .number) hts).cases
    · rw [heq]
      refine ⟨?_, h.2⟩
      dsimp only
      split <;> exact ⟨harr, h.1⟩
    · rw [heq]
      exact ⟨hwhy, .nil⟩

/-- What stands between an index and the value that is assigned. -/
theorem indexEnd_answered (hts : TokensAt P ts) :
    Answered P (TokensAt P) (do
      let (_, ts) ← c.expect .rbracket ts
      let (_, ts) ← c.expect .assign ts
      return ts) :=
  (expect_answered hc .rbracket hts).bind fun _ h =>
    (expect_answered hc .assign h.2).bind fun _ h => h.2

theorem assignment_reads {x : Token} (hx : P x.pos) : (c.assignment x).Reads P (Stmt.IsAt P) := by
  intro ts hts
  unfold assignment
  split
  · split
    · rename_i ts₁ hopen
      have hindex := expr_reads hc ts₁ (accept_tokensAt hts hopen)
      dsimp only
      obtain ⟨ts₂, heq, h⟩ | ⟨why, heq, hwhy⟩ := (indexEnd_answered hc hindex.2).cases
      · have hvalue := expr_reads hc ts₂ h
        rw [heq]
        exact ⟨⟨hx, hindex.1, hvalue.1⟩, hvalue.2⟩
      · rw [heq]
        exact ⟨⟨hx, hindex.1, hwhy⟩, .nil⟩
    · obtain ⟨⟨t, ts₁⟩, heq, h⟩ | ⟨why, heq, hwhy⟩ := (expect_answered hc .assign hts).cases
      · rw [heq]
        exact arrayValue_reads hc hx ts₁ h.2
      · rw [heq]
        exact ⟨hwhy, .nil⟩
  · obtain ⟨⟨t, ts₁⟩, heq, h⟩ | ⟨why, heq, hwhy⟩ := (expect_answered hc .assign hts).cases
    · have hvalue := expr_reads hc ts₁ h.2
      rw [heq]
      exact ⟨⟨hx, hvalue.1⟩, hvalue.2⟩
    · rw [heq]
      exact ⟨⟨hx, hwhy⟩, .nil⟩

theorem inlineAsm_reads : (c.inlineAsm).Reads P (Stmt.IsAt P) := by
  intro ts hts
  have hlines : TokensAt P (ts.span (·.kind == .asmLine)).1 := by
    rw [List.span_eq_takeWhile_dropWhile]
    exact fun t ht => hts t ((List.takeWhile_sublist _).subset ht)
  have hrest : TokensAt P (ts.span (·.kind == .asmLine)).2 := by
    rw [List.span_eq_takeWhile_dropWhile]
    exact fun t ht => hts t ((List.dropWhile_sublist _).subset ht)
  have hclose := gate_taken hc .kwEnd hrest
  exact ⟨⟨hlines, hclose.1⟩, hclose.2⟩

theorem stepStmt_reads (op : StepOp) : (c.stepStmt op).Reads P (Stmt.IsAt P) := by
  intro ts hts
  unfold stepStmt
  obtain ⟨⟨x, ts₁⟩, heq, h⟩ | ⟨why, heq, hwhy⟩ := (expect_answered hc .name hts).cases
  · rw [heq]
    exact h
  · rw [heq]
    exact ⟨hwhy, .nil⟩

theorem callStmt_reads : (c.callStmt).Reads P (Stmt.IsAt P) := by
  intro ts hts
  unfold callStmt
  obtain ⟨⟨x, ts₁⟩, heq, h⟩ | ⟨why, heq, hwhy⟩ := (expect_answered hc .name hts).cases
  · rw [heq]
    exact h
  · rw [heq]
    exact ⟨hwhy, .nil⟩

theorem firstPort_answered (hts : TokensAt P ts) :
    Answered P (Taken P fun _ => True) (do
      let (port, ts) ← c.port ts
      let (_, ts) ← c.expect .comma ts
      return (port, ts)) :=
  (port_answered hc hts).bind fun _ h =>
    (expect_answered hc .comma h.2).bind fun _ h => ⟨trivial, h.2⟩

theorem outputStmt_reads : (c.outputStmt).Reads P (Stmt.IsAt P) := by
  intro ts hts
  unfold outputStmt
  obtain ⟨⟨port, ts₁⟩, heq, h⟩ | ⟨why, heq, hwhy⟩ := (firstPort_answered hc hts).cases
  · rw [heq]
    exact expr_reads hc ts₁ h.2
  · rw [heq]
    exact ⟨hwhy, .nil⟩

theorem lastPort_answered (hts : TokensAt P ts) :
    Answered P (Taken P fun _ => True) (do
      let (_, ts) ← c.expect .comma ts
      c.port ts) :=
  (expect_answered hc .comma hts).bind fun _ h => port_answered hc h.2

theorem inputStmt_reads : (c.inputStmt).Reads P (Stmt.IsAt P) := by
  intro ts hts
  unfold inputStmt
  obtain ⟨⟨x, ts₁⟩, heq, hx⟩ | ⟨why, heq, hwhy⟩ := (expect_answered hc .name hts).cases
  · rw [heq]
    dsimp only
    obtain ⟨⟨port, ts₂⟩, heq', h⟩ | ⟨why, heq', hwhy⟩ := (lastPort_answered hc hx.2).cases
    · rw [heq']
      exact ⟨⟨hx.1, trivial⟩, h.2⟩
    · rw [heq']
      exact ⟨⟨hx.1, hwhy⟩, .nil⟩
  · rw [heq]
    exact ⟨hwhy, .nil⟩

section

variable {sub : Reader Stmt} (hsub : sub.Reads P (Stmt.IsAt P))

include hsub

theorem conditional_reads : (c.conditional sub).Reads P (Stmt.IsAt P) := by
  intro ts hts
  have htest := cond_reads hc ts hts
  have hgate := gate_taken hc .kwThen htest.2
  have hyes := hsub _ hgate.2
  unfold conditional
  dsimp only
  split
  · rename_i ts₁ helse
    have hno := hsub ts₁ (accept_tokensAt hyes.2 helse)
    exact ⟨⟨htest.1, hgate.1, hyes.1, hno.1⟩, hno.2⟩
  · exact ⟨⟨htest.1, hgate.1, hyes.1⟩, hyes.2⟩

theorem whileLoop_reads : (c.whileLoop sub).Reads P (Stmt.IsAt P) := by
  intro ts hts
  have htest := cond_reads hc ts hts
  have hgate := gate_taken hc .kwDo htest.2
  have hbody := hsub _ hgate.2
  exact ⟨⟨htest.1, hgate.1, hbody.1⟩, hbody.2⟩

theorem repeatLoop_reads : (c.repeatLoop sub).Reads P (Stmt.IsAt P) := by
  intro ts hts
  have hbody := statements_reads hsub .kwUntil (ts.length + 1) ts hts
  unfold repeatLoop
  dsimp only
  obtain ⟨⟨t, ts₁⟩, heq, h⟩ | ⟨why, heq, hwhy⟩ := (expect_answered hc .kwUntil hbody.2).cases
  · have htest := cond_reads hc ts₁ h.2
    rw [heq]
    exact ⟨⟨hbody.1, htest.1⟩, htest.2⟩
  · rw [heq]
    exact ⟨⟨hbody.1, hwhy⟩, .nil⟩

theorem countedLoop_reads {x : Token} (hx : P x.pos) :
    (c.countedLoop sub x).Reads P (Stmt.IsAt P) := by
  intro ts hts
  have hfirst := expr_reads hc ts hts
  unfold countedLoop
  dsimp only
  obtain ⟨⟨t, ts₁⟩, heq, h⟩ | ⟨why, heq, hwhy⟩ := (expectAny_answered hc
    (fun k => k == .kwTo || k == .kwDownto) hfirst.2).cases
  · have hlast := expr_reads hc ts₁ h.2
    have hgate := gate_taken hc .kwDo hlast.2
    have hbody := hsub _ hgate.2
    rw [heq]
    exact ⟨⟨hx, hfirst.1, hlast.1, hgate.1, hbody.1⟩, hbody.2⟩
  · rw [heq]
    exact ⟨⟨hx, hfirst.1, here_isAt hc hfirst.2, trivial, trivial⟩, .nil⟩

theorem forLoop_reads : (c.forLoop sub).Reads P (Stmt.IsAt P) := by
  intro ts hts
  unfold forLoop
  obtain ⟨⟨x, ts₁⟩, heq, hx⟩ | ⟨why, heq, hwhy⟩ := (expect_answered hc .name hts).cases
  · rw [heq]
    dsimp only
    obtain ⟨⟨t, ts₂⟩, heq', h⟩ | ⟨why, heq', hwhy⟩ := (expect_answered hc .assign hx.2).cases
    · rw [heq']
      exact countedLoop_reads hc hsub hx.1 ts₂ h.2
    · rw [heq']
      exact ⟨⟨hx.1, hwhy, hwhy, trivial, trivial⟩, .nil⟩
  · rw [heq]
    exact ⟨hwhy, .nil⟩

theorem compound_reads : (c.compound sub).Reads P (Stmt.IsAt P) := by
  intro ts hts
  have hbody := statements_reads hsub .kwEnd (ts.length + 1) ts hts
  have hclose := gate_taken hc .kwEnd hbody.2
  exact ⟨⟨hbody.1, hclose.1⟩, hclose.2⟩

theorem statement_reads : Reader.Reads P (Stmt.IsAt P) (c.statement sub) := by
  intro ts hts
  cases ts with
  | nil => exact ⟨unexpected_isAt hc .nil, .nil⟩
  | cons t ts =>
    have ht : P t.pos := hts t (.head _)
    have hts' : TokensAt P ts := hts.tail
    rw [statement]
    split
    · exact assignment_reads hc ht ts hts'
    · exact callStmt_reads hc ts hts'
    · exact compound_reads hc hsub ts hts'
    · exact inlineAsm_reads hc ts hts'
    · exact conditional_reads hc hsub ts hts'
    · exact whileLoop_reads hc hsub ts hts'
    · exact repeatLoop_reads hc hsub ts hts'
    · exact forLoop_reads hc hsub ts hts'
    · exact stepStmt_reads hc .shr ts hts'
    · exact stepStmt_reads hc .shl ts hts'
    · exact stepStmt_reads hc .inc ts hts'
    · exact stepStmt_reads hc .dec ts hts'
    · exact ⟨trivial, hts'⟩
    · exact outputStmt_reads hc ts hts'
    · exact inputStmt_reads hc ts hts'
    · exact ⟨ht, .nil⟩

end

theorem stmtWithin_reads (depth : Nat) : (c.stmtWithin depth).Reads P (Stmt.IsAt P) := by
  induction depth with
  | zero => exact fun ts hts => ⟨unexpected_isAt hc hts, .nil⟩
  | succ depth ih => exact statement_reads hc ih

theorem stmt_reads : (c.stmt).Reads P (Stmt.IsAt P) :=
  fun ts hts => stmtWithin_reads hc ts.length ts hts

/-! ### Declarations -/

theorem constant_answered (hts : TokensAt P ts) : Answered P (TokensAt P) (c.constant ts) :=
  (expect_answered hc .name hts).bind fun _ h => (expect_answered hc .eq h.2).bind fun _ h =>
    (number_answered hc h.2).bind fun _ h => h.2

theorem constants_answered (count : Nat) (hts : TokensAt P ts) :
    Answered P (TokensAt P) (c.constants count ts) := by
  induction count generalizing ts with
  | zero =>
    exact (constant_answered hc hts).bind fun _ h => (expect_answered hc .semicolon h).bind fun _ h =>
      h.2
  | succ count ih =>
    refine (constant_answered hc hts).bind fun ts₁ h => ?_
    split
    · rename_i ts₂ hcomma
      exact ih (accept_tokensAt h hcomma)
    · exact (expect_answered hc .semicolon h).bind fun _ h => h.2

theorem names_answered (count : Nat) (hts : TokensAt P ts) :
    Answered P (Taken P (TokensAt P)) (c.names count ts) := by
  induction count generalizing ts with
  | zero =>
    exact (expect_answered hc .name hts).bind fun _ h => ⟨List.forall_mem_singleton.2 h.1, h.2⟩
  | succ count ih =>
    refine (expect_answered hc .name hts).bind fun ⟨x, ts₁⟩ h => ?_
    dsimp only
    split
    · rename_i ts₂ hcomma
      refine (ih (accept_tokensAt h.2 hcomma)).bind fun ⟨xs, ts₃⟩ hmore => ?_
      exact ⟨List.forall_mem_cons.2 ⟨h.1, hmore.1⟩, hmore.2⟩
    · exact ⟨List.forall_mem_singleton.2 h.1, h.2⟩

theorem arrayLength_answered (width : Width) (hts : TokensAt P ts) :
    Answered P (Taken P fun _ => True) (c.arrayLength width ts) := by
  unfold arrayLength
  split
  · exact ⟨trivial, hts⟩
  · rename_i ts₁ hopen
    refine (expect_answered hc .number (accept_tokensAt hts hopen)).bind fun ⟨t, ts₂⟩ ht => ?_
    refine (numberValue_answered ht.1).bind fun len _ => ?_
    refine (expect_answered hc .rbracket ht.2).bind fun ⟨_, ts₃⟩ h => ?_
    dsimp only
    split
    · exact ht.1
    · split
      · exact ht.1
      · exact ⟨trivial, h.2⟩

theorem declaration_answered (hts : TokensAt P ts) :
    Answered P (Taken P fun ds => ∀ d ∈ ds, P d.x.pos) (c.declaration ts) := by
  refine (names_answered hc ts.length hts).bind fun ⟨xs, ts₁⟩ hxs => ?_
  refine (expect_answered hc .colon hxs.2).bind fun ⟨_, ts₂⟩ h => ?_
  refine (expect_answered hc .typeName h.2).bind fun ⟨t, ts₃⟩ ht => ?_
  dsimp only
  split
  · exact ht.1
  · rename_i width _
    refine (arrayLength_answered hc width ht.2).bind fun ⟨len, ts₄⟩ hlen => ⟨?_, hlen.2⟩
    intro d hd
    obtain ⟨x, hx, rfl⟩ := List.mem_map.1 hd
    exact hxs.1 x hx

/-- The declarations of a section, and the tokens after it or its fault. -/
theorem varSection_answered (count : Nat) (hts : TokensAt P ts) :
    (∀ d ∈ (c.varSection count ts).1, P d.x.pos)
      ∧ Answered P (TokensAt P) (c.varSection count ts).2 := by
  induction count generalizing ts with
  | zero => exact ⟨nofun, unexpected_isAt hc hts⟩
  | succ count ih =>
    rw [varSection]
    obtain ⟨⟨ds, ts₁⟩, heq, hds⟩ | ⟨why, heq, hwhy⟩ := (declaration_answered hc hts).cases
    · rw [heq]
      have hmore : ∀ ts₂, TokensAt P ts₂ →
          (∀ d ∈ ds ++ (c.varSection count ts₂).1, P d.x.pos)
            ∧ Answered P (TokensAt P) (c.varSection count ts₂).2 := by
        intro ts₂ hts₂
        exact ⟨List.forall_mem_append.2 ⟨hds.1, (ih hts₂).1⟩, (ih hts₂).2⟩
      dsimp only
      split
      · rename_i ts₂ hcomma
        exact hmore ts₂ (accept_tokensAt hds.2 hcomma)
      · obtain ⟨⟨t, ts₂⟩, heq', h⟩ | ⟨why, heq', hwhy⟩ := (expect_answered hc .semicolon hds.2).cases
        · rw [heq']
          dsimp only
          split
          · exact hmore ts₂ h.2
          · exact ⟨hds.1, h.2⟩
        · rw [heq']
          exact ⟨hds.1, hwhy⟩
    · rw [heq]
      exact ⟨nofun, hwhy⟩

theorem heading_answered (hts : TokensAt P ts) :
    Answered P (Taken P fun t => P t.pos) (c.heading ts) :=
  (expect_answered hc .name hts).bind fun _ hp =>
    (expect_answered hc .semicolon hp.2).bind fun _ h => ⟨hp.1, h.2⟩

end

theorem isAt_declareAll {ds : List Declared} {rest : Block} (hds : ∀ d ∈ ds, P d.x.pos)
    (hrest : rest.IsAt P) : (declareAll ds rest).IsAt P := by
  induction ds with
  | nil => exact hrest
  | cons d ds ih => exact ⟨hds d (.head _), ih fun d' hd' => hds d' (.tail _ hd')⟩

theorem blockWithin_reads (hc : P c.finish) (count : Nat) :
    (blockWithin count c).Reads P (Block.IsAt P) := by
  induction count generalizing c with
  | zero => exact stmt_reads hc
  | succ count ih =>
    intro ts hts
    rw [blockWithin]
    split
    · obtain ⟨ts₁, heq, h⟩ | ⟨why, heq, hwhy⟩ := (constants_answered hc ts.length hts.tail).cases
      · rw [heq]
        exact ih hc ts₁ h
      · rw [heq]
        exact ⟨hwhy, .nil⟩
    · obtain ⟨hds, hrest⟩ := varSection_answered hc ts.length hts.tail
      dsimp only
      obtain ⟨ts₁, heq, h⟩ | ⟨why, heq, hwhy⟩ := hrest.cases
      · have hblock := ih (c := c.declare (c.varSection ts.length ts.tail).1) hc ts₁ h
        rw [heq]
        exact ⟨isAt_declareAll hds hblock.1, hblock.2⟩
      · rw [heq]
        exact ⟨isAt_declareAll hds hwhy, .nil⟩
    · obtain ⟨⟨p, ts₁⟩, heq, hp⟩ | ⟨why, heq, hwhy⟩ := (heading_answered hc hts.tail).cases
      · have hbody := ih hc ts₁ hp.2
        have hclose := gate_taken hc .semicolon hbody.2
        have hrest := ih hc _ hclose.2
        rw [heq]
        exact ⟨⟨hp.1, hbody.1, hclose.1, hrest.1⟩, hrest.2⟩
      · rw [heq]
        exact ⟨hwhy, .nil⟩
    · exact stmt_reads hc ts hts

end Context

/-- The positions in the tree that tokens spell are theirs, or the place where their end is
reported. -/
theorem Program.isAt_ofTokens {P : Pos → Prop} {file : String} {tokens : List Token}
    (hend : P (endOfTokens file (tokens.filter (!·.isIgnorable))))
    (htokens : ∀ t ∈ tokens, t.isIgnorable = false → P t.pos) :
    (Program.ofTokens file tokens).IsAt P := by
  let ts := tokens.filter (!·.isIgnorable)
  let c : Context := { finish := endOfTokens file ts }
  have hts : Context.TokensAt P ts := by
    intro t ht
    obtain ⟨hmem, hkind⟩ := List.mem_filter.1 ht
    exact htokens t hmem (by simpa using hkind)
  have hblock := Context.blockWithin_reads (c := c) hend ts.length ts hts
  exact ⟨hblock.1, (Context.gate_taken (c := c) hend .period hblock.2).1⟩

end NibblePascal
