import Mathlib.Data.List.Forall2
import NibblePascal.Program.Block
import NibblePascal.Proofs.Except
import NibblePascal.Proofs.Generation.Sequence

/-!
# What code is generated

The relations below say which lines are the code of a tree.  They leave out how the generator
comes by them: pending jumps, positions and the edits at the end.

* `Stock` is what the code depends on besides the tree and the names in scope: the memory
  given out and the number of labels in use;
* `Expr.Coded sc s e lines v s'`: the code of `e` is `lines`, its value is in `v`, and the
  stock goes from `s` to `s'`;
* `Cond.Coded sc chain s c test s'`: the code of a condition is a test, which leaves by its
  exits only;
* `Stmt.Coded sc s st code s'` and `Block.Coded label name o b code o'`: the code is a list of
  pieces, since calls and returns get their final lines only when all calls are known;
* `Outline.lines o code`: those final lines.
-/

namespace NibblePascal

/-! ### The stock -/

/-- The memory given out and the number of labels in use. -/
structure Stock where
  memory : Allocator
  labels : Nat

namespace Stock

/-- The stock after `n` labels were taken. -/
def skip (s : Stock) (n : Nat) : Stock := { s with labels := s.labels + n }

/-- Report a shortage of memory at `pos` from now on. -/
def locate (s : Stock) (pos : Pos) : Stock := { s with memory := s.memory.locate pos }

/-- Put a temporary back. -/
def release (s : Stock) (v : Var) : Stock := { s with memory := s.memory.release v }

/-- The temporary `v` is taken. -/
def Takes (s : Stock) (w : Width) (v : Var) (s' : Stock) : Prop :=
  ∃ memory, s.memory.temp w = (.ok v, memory) ∧ s' = { s with memory := memory }

@[simp] theorem labels_skip (s : Stock) (n : Nat) : (s.skip n).labels = s.labels + n := rfl

@[simp] theorem skip_skip (s : Stock) (m n : Nat) : (s.skip m).skip n = s.skip (m + n) := by
  simp [skip, Nat.add_assoc]

@[simp] theorem labels_locate (s : Stock) (pos : Pos) : (s.locate pos).labels = s.labels := rfl

@[simp] theorem labels_release (s : Stock) (v : Var) : (s.release v).labels = s.labels := rfl

theorem Takes.labels_eq {s s' : Stock} {w : Width} {v : Var} (h : s.Takes w v s') :
    s'.labels = s.labels := by
  obtain ⟨memory, -, rfl⟩ := h
  rfl

end Stock

/-- The mark of a temporary that goes back to its pool. -/
def freeLines (v : Var) : List Line := if v.temp then [.release v.addr] else []

/-! ### Expressions -/

/-- The value of `v` at a width is in `v` itself or in a new temporary. -/
inductive Converted (s : Stock) (v : Var) (w : Width) : List Line → Var → Stock → Prop
  | same (h : v.width = w) : Converted s v w [] v s
  | resized {res : Var} {s' : Stock} (h : v.width ≠ w) (ht : s.Takes w res s') :
      Converted s v w (Code.resize v res ++ freeLines v) res (s'.release v)

/-- Two operands are brought to the width of the wider one. -/
inductive Matched (s : Stock) (a b : Var) : List Line → Var → Var → Stock → Prop
  | same (h : a.width = b.width) : Matched s a b [] a b s
  | left {lines : List Line} {a' : Var} {s' : Stock} (h : a.cells < b.cells)
      (hc : Converted s a b.width lines a' s') : Matched s a b lines a' b s'
  | right {lines : List Line} {b' : Var} {s' : Stock} (h : b.cells < a.cells)
      (hc : Converted s b a.width lines b' s') : Matched s a b lines a b' s'

/-- The operation of the arithmetic unit that an operator is made of. -/
def BinaryOp.alu? : BinaryOp → Option AluOp
  | add => some .add
  | sub => some .sub
  | and => some .and
  | or => some .or
  | xor => some .xor
  | _ => none

/-- The code of an operator on operands of one width. -/
inductive Operated (s : Stock) (a b res : Var) : BinaryOp → List Line → Stock → Prop
  | combine {op : BinaryOp} {alu : AluOp} (h : op.alu? = some alu) :
      Operated s a b res op (Code.combine alu a b res) s
  | multiply {u w : Var} {s₁ s₂ : Stock} (hu : s.Takes a.width u s₁) (hw : s₁.Takes a.width w s₂) :
      Operated s a b res .mul
        (Code.comment (res.name ++ " = " ++ a.name ++ " * " ++ b.name) ::
          Code.product a b res u w s₂.labels)
        (((s₂.skip Code.productLabels).release u).release w)
  | divide {u w : Var} {s₁ s₂ : Stock} (remainder : Bool) (hu : s.Takes a.width u s₁)
      (hw : s₁.Takes a.width w s₂) :
      Operated s a b res (if remainder then .mod else .div)
        (Code.comment (res.name ++ " = " ++ a.name ++ " " ++ (if remainder then "%" else "/")
          ++ " " ++ b.name) :: Code.quotient a b res u w remainder s₂.labels)
        (((s₂.skip Code.quotientLabels).release u).release w)

/-- The width of half a scalar. -/
def Width.half? : Width → Option Width
  | nibble => none
  | byte => some nibble
  | word => some byte

/-- The lines are the code of an expression, and the scalar holds its value. -/
inductive Expr.Coded (sc : Scope) : Stock → Expr → List Line → Var → Stock → Prop
  | scalar {s : Stock} {x : Token} {v : Var} (h : sc.find? x.text = some (.scalar v)) :
      Coded sc s (.scalar x) [] v (s.locate x.pos)
  | literal {s s' : Stock} {pos : Pos} {value : Nat} {v : Var}
      (ht : (s.locate pos).Takes (Width.fit value) v s') :
      Coded sc s (.literal pos value) (Code.constant value v) v s'
  | negLiteral {s s' : Stock} {pos : Pos} {value : Nat} {v : Var}
      (ht : (s.locate pos).Takes .word v s') :
      Coded sc s (.negLiteral pos value) (Code.constant ((0x10000 - value) % 0x10000) v) v s'
  | element {s s₁ s₂ s₃ : Stock} {x : Token} {index : Expr} {arr : ArrayVar} {lines : List Line}
      {i res offset : Var} (ha : sc.find? x.text = some (.array arr))
      (hi : Coded sc (s.locate x.pos) index lines i s₁) (hr : s₁.Takes arr.width res s₂)
      (ho : s₂.Takes .byte offset s₃) :
      Coded sc s (.element x index .passed)
        (lines ++ (Code.readElement arr i res offset ++ freeLines i)) res
        ((s₃.release offset).release i)
  | halfNibble {s : Stock} {pos : Pos} {upper : Bool} {x : Token} {v : Var}
      (h : sc.find? x.text = some (.scalar v)) (hw : v.width = .nibble) :
      Coded sc s (.half pos upper x .passed) [] v (s.locate pos)
  | half {s s' : Stock} {pos : Pos} {upper : Bool} {x : Token} {v res : Var} {w : Width}
      (h : sc.find? x.text = some (.scalar v)) (hw : v.width.half? = some w)
      (ht : (s.locate pos).Takes w res s') :
      Coded sc s (.half pos upper x .passed)
        (Code.extract v (if upper then v.cells / 2 else 0) res) res s'
  | paren {s s' : Stock} {e : Expr} {lines : List Line} {v : Var} (h : Coded sc s e lines v s') :
      Coded sc s (.paren e .passed) lines v s'
  | negate {s s₁ s₂ s₃ : Stock} {e : Expr} {lines lines' : List Line} {v wide res : Var}
      (h : Coded sc s e lines v s₁) (hc : Converted s₁ v .word lines' wide s₂)
      (ht : s₂.Takes wide.width res s₃) :
      Coded sc s (.negate e)
        (lines ++ (lines' ++ (Code.clear res ++ (Code.combine .sub res wide res
          ++ freeLines wide)))) res (s₃.release wide)
  | binary {s s₁ s₂ s₃ s₄ s₅ : Stock} {op : BinaryOp} {lhs rhs : Expr}
      {lines₁ lines₂ lines₃ lines₄ : List Line} {a b a' b' res : Var}
      (ha : Coded sc s lhs lines₁ a s₁) (hb : Coded sc s₁ rhs lines₂ b s₂)
      (hm : Matched s₂ a b lines₃ a' b' s₃) (ht : s₃.Takes a'.width res s₄)
      (ho : Operated s₄ a' b' res op lines₄ s₅) :
      Coded sc s (.binary op lhs rhs)
        (lines₁ ++ (lines₂ ++ (lines₃ ++ (lines₄ ++ (freeLines a' ++ freeLines b'))))) res
        ((s₅.release a').release b')

/-! ### Conditions -/

/-- A chain of alternatives: the code up to the last one, whose exits are open, and the labels
for the outcomes of the whole chain. -/
structure Chain where
  test : List TestLine
  yes : String
  no : String

namespace Code

/-- The exits of a test lead to a fresh pair of exits. -/
def merged (yes no : String) (test : List TestLine) : List TestLine :=
  (closeTest yes no test).map .line
    ++ [.line (.label yes), .exit true .jmp, .line (.label no), .exit false .jmp]

/-- One outcome of a test leads to the code that comes next, at `next`. -/
def continued (yes no next : String) (test : List TestLine) : List TestLine :=
  (closeTest yes no test ++ [Line.label next]).map .line

end Code

/-- The test is the code of a condition that continues a chain of alternatives, if there is
one. -/
inductive Cond.Coded (sc : Scope) : Option Chain → Stock → Cond → List TestLine → Stock → Prop
  | compare {s s₁ s₂ s₃ : Stock} {lhs rhs : Expr} {rel : Relation}
      {lines₁ lines₂ lines₃ : List Line} {a b a' b' : Var}
      (ha : Expr.Coded sc s lhs lines₁ a s₁) (hb : Expr.Coded sc s₁ rhs lines₂ b s₂)
      (hm : Matched s₂ a b lines₃ a' b' s₃) :
      Coded sc none s (.compare lhs rel rhs)
        ((lines₁ ++ (lines₂ ++ lines₃)).map .line ++ (Code.relationTest rel a' b' s₃.labels
          ++ (freeLines a' ++ freeLines b').map .line))
        (((s₃.skip (Code.relationLabels rel a')).release a').release b')
  | nonzero {s s' : Stock} {e : Expr} {lines : List Line} {v : Var}
      (h : Expr.Coded sc s e lines v s') :
      Coded sc none s (.nonzero e)
        (lines.map .line ++ (Code.nonzeroTest v ++ (freeLines v).map .line)) (s'.release v)
  | odd {s s' : Stock} {e : Expr} {lines : List Line} {v : Var}
      (h : Expr.Coded sc s e lines v s') :
      Coded sc none s (.odd e)
        (lines.map .line ++ (Code.oddTest v ++ (freeLines v).map .line)) (s'.release v)
  | group {s s' : Stock} {c : Cond} {test : List TestLine} (h : Coded sc none s c test s') :
      Coded sc none s (.group c .passed) test s'
  | and {s s₁ s₂ : Stock} {lhs rhs : Cond} {test₁ test₂ : List TestLine}
      (hl : Coded sc none s lhs test₁ s₁) (hr : Coded sc none (s₁.skip 3) rhs test₂ s₂) :
      Coded sc none s (.and lhs rhs)
        (Code.continued (Code.labelName (s₁.labels + 2)) (Code.labelName (s₁.labels + 1))
          (Code.labelName (s₁.labels + 2)) test₁
          ++ Code.merged (Code.labelName s₁.labels) (Code.labelName (s₁.labels + 1)) test₂) s₂
  | or {s s₁ s₂ : Stock} {lhs rhs : Cond} {test₁ test₂ : List TestLine}
      (hl : Coded sc none s lhs test₁ s₁)
      (hr : Coded sc (some ⟨test₁, Code.labelName s₁.labels, Code.labelName (s₁.labels + 1)⟩)
        (s₁.skip 2) rhs test₂ s₂) :
      Coded sc none s (.or lhs rhs) test₂ s₂
  | next {chain : Chain} {s s₁ s₂ : Stock} {lhs rhs : Cond} {test₁ test₂ : List TestLine}
      (hl : Coded sc none (s.skip 1) lhs test₁ s₁)
      (hr : Coded sc (some { chain with
        test := Code.continued chain.yes (Code.labelName s.labels) (Code.labelName s.labels)
          chain.test ++ test₁ })
        s₁ rhs test₂ s₂) :
      Coded sc (some chain) s (.or lhs rhs) test₂ s₂
  | last {chain : Chain} {s s' : Stock} {c : Cond} {test : List TestLine}
      (hc : ∀ lhs rhs, c ≠ .or lhs rhs) (h : Coded sc none (s.skip 1) c test s') :
      Coded sc (some chain) s c
        (Code.continued chain.yes (Code.labelName s.labels) (Code.labelName s.labels) chain.test
          ++ Code.merged chain.yes chain.no test) s'

/-! ### Pieces of code -/

/-- A line of a program, where the lines of calls and returns are still to be written. -/
inductive Piece
  | line (l : Line)
  /-- The jump into a procedure, from which it returns to a label. -/
  | call (name ret : String)
  /-- The end of the body of a procedure. -/
  | finish (name : String)
  deriving DecidableEq, Repr, Inhabited

namespace Piece

/-- Pieces that are lines. -/
def ofLines (lines : List Line) : List Piece := lines.map line

/-- The place of a label. -/
def mark (n : Nat) : Piece := line (Code.label n)

/-- A jump to a numbered label. -/
def goto (n : Nat) : Piece := line (Code.jump .jmp (Code.labelName n))

/-- A test whose exits lead to two numbered labels. -/
def test (yes no : Nat) (t : List TestLine) : List Piece :=
  ofLines (Code.closeTest (Code.labelName yes) (Code.labelName no) t)

/-- `if t then body`, with three labels from number `n` on. -/
def ifThen (n : Nat) (t : List TestLine) (body : List Piece) : List Piece :=
  test n (n + 2) t ++ (mark n :: (body ++ [mark (n + 2)]))

/-- `if t then first else second`, with three labels from number `n` on. -/
def ifElse (n : Nat) (t : List TestLine) (first second : List Piece) : List Piece :=
  test n (n + 1) t
    ++ (mark n :: (first ++ (goto (n + 2) :: mark (n + 1) :: (second ++ [mark (n + 2)]))))

/-- `while t do body`, with three labels from number `n` on. -/
def whileDo (n : Nat) (t : List TestLine) (body : List Piece) : List Piece :=
  mark n :: (test (n + 1) (n + 2) t ++ (mark (n + 1) :: (body ++ [goto n, mark (n + 2)])))

/-- `repeat body until t`, with two labels from number `n` on. -/
def repeatUntil (n : Nat) (body : List Piece) (t : List TestLine) : List Piece :=
  mark n :: (body ++ (test (n + 1) n t ++ [mark (n + 1)]))

/-- The loop of a counter, with four labels from number `n` on: leave if the counter is past
its limit, and step after the body unless the limit is reached. -/
def forLoop (n : Nat) (past : List TestLine) (body : List Piece) (done : List TestLine)
    (step : List Line) : List Piece :=
  mark n :: (test (n + 3) (n + 1) past ++ (mark (n + 1) :: (body ++ (test (n + 3) (n + 2) done
    ++ (mark (n + 2) :: (ofLines step ++ [goto n, mark (n + 3)]))))))

end Piece

/-! ### Statements -/

/-- Whether a statement has no inline assembly. -/
def Stmt.asmFree : Stmt → Bool
  | asm _ _ => false
  | seq first rest => first.asmFree && rest.asmFree
  | block body _ => body.asmFree
  | ifThen _ _ yes => yes.asmFree
  | ifElse _ _ yes no => yes.asmFree && no.asmFree
  | whileDo _ _ body => body.asmFree
  | repeatUntil body _ => body.asmFree
  | forDo _ _ _ _ _ body => body.asmFree
  | _ => true

/-- The line that a line of inline assembly stands for. -/
def Scope.inlineLine (sc : Scope) (text : Token) : Except Complaint Line :=
  Code.inlineLine (fun name => (sc.find? name).map (·.addr)) text.text

/-- Inline assembly is no instruction of the generated code. -/
theorem Scope.inst?_inlineLine {sc : Scope} {text : Token} {l : Line}
    (h : sc.inlineLine text = .ok l) : l.inst? = none := by
  unfold inlineLine Code.inlineLine at h
  dsimp only at h
  split at h
  · cases h
    rfl
  · split at h
    · split at h <;> cases h <;> rfl
    · obtain ⟨param, -, h⟩ := of_bind_ok h
      cases h
      rfl

/-- Leave a loop with a counter that is past its limit. -/
def Relation.past (down : Bool) : Relation := if down then .lt else .gt

/-- Move the counter of a loop on. -/
def Code.advanceCounter (down : Bool) (v : Var) : List Line :=
  if down then decrement v else increment v

/-- The pieces are the code of a statement. -/
inductive Stmt.Coded (sc : Scope) : Stock → Stmt → List Piece → Stock → Prop
  | skip {s : Stock} : Coded sc s .skip [] s
  | seq {s s₁ s₂ : Stock} {first rest : Stmt} {code₁ code₂ : List Piece}
      (hf : Coded sc s first code₁ s₁) (hr : Coded sc s₁ rest code₂ s₂) :
      Coded sc s (.seq first rest) (code₁ ++ code₂) s₂
  | nop {s : Stock} : Coded sc s .nop [.line (.inst .nop)] s
  | block {s s' : Stock} {body : Stmt} {code : List Piece} (h : Coded sc s body code s') :
      Coded sc s (.block body .passed) code s'
  | assign {s s' : Stock} {x : Token} {value : Expr} {dst v : Var} {lines : List Line}
      (hx : sc.find? x.text = some (.scalar dst)) (hv : Expr.Coded sc s value lines v s') :
      Coded sc s (.assign x value)
        (Piece.ofLines (lines ++ (Code.resize v dst ++ freeLines v))) (s'.release v)
  | setElement {s s₁ s₂ s₃ s₄ : Stock} {x : Token} {index value : Expr} {arr : ArrayVar}
      {i v v' offset : Var} {lines₁ lines₂ lines₃ : List Line}
      (hx : sc.find? x.text = some (.array arr)) (hi : Expr.Coded sc s index lines₁ i s₁)
      (hv : Expr.Coded sc s₁ value lines₂ v s₂) (hc : Converted s₂ v arr.width lines₃ v' s₃)
      (ho : s₃.Takes .byte offset s₄) :
      Coded sc s (.setElement x index value)
        (Piece.ofLines (lines₁ ++ (lines₂ ++ (lines₃ ++ (Code.writeElement arr i v' offset
          ++ (freeLines i ++ freeLines v')))))) (((s₄.release offset).release i).release v')
  | fillList {s : Stock} {x : Token} {values : List Nat} {arr : ArrayVar}
      (hx : sc.find? x.text = some (.array arr))
      (hl : (valueCells arr.width values).length ≤ arr.size) :
      Coded sc s (.fillList x values)
        (Piece.ofLines (Code.fillArray arr (valueCells arr.width values))) s
  | fillText {s : Stock} {x text : Token} {arr : ArrayVar} {cs : List Char} {cells : List Nat}
      (hx : sc.find? x.text = some (.array arr)) (hu : Gen.unquote? text.text = some cs)
      (hc : textCells cs = .ok cells) (hl : cells.length ≤ arr.size) :
      Coded sc s (.fillText x text) (Piece.ofLines (Code.fillArray arr cells)) s
  | copyArray {s : Stock} {x y : Token} {dst src : ArrayVar}
      (hx : sc.find? x.text = some (.array dst)) (hy : sc.find? y.text = some (.array src))
      (hw : src.width = dst.width) (hl : src.len ≤ dst.len) (hs : src.size < 0x10000) :
      Coded sc s (.copyArray x y)
        (Piece.ofLines (Code.comment (dst.name ++ " := " ++ src.name) :: Code.copyArray src dst))
        s
  | call {s : Stock} {p : Token} (h : sc.hasProcedure p.text = true) :
      Coded sc s (.call p) [.call p.text (Code.labelName s.labels), .mark s.labels] (s.skip 1)
  | asm {s : Stock} {texts : List Token} {lines : List Line}
      (h : List.Forall₂ (fun text l => sc.inlineLine text = .ok l) texts lines) :
      Coded sc s (.asm texts .passed) (Piece.ofLines lines) s
  | ifThen {s s₁ s₂ : Stock} {c : Cond} {yes : Stmt} {test : List TestLine} {code : List Piece}
      (hc : Cond.Coded sc none (s.skip 3) c test s₁) (hy : Coded sc s₁ yes code s₂) :
      Coded sc s (.ifThen c .passed yes) (Piece.ifThen s.labels test code) s₂
  | ifElse {s s₁ s₂ s₃ : Stock} {c : Cond} {yes no : Stmt} {test : List TestLine}
      {code₁ code₂ : List Piece} (hc : Cond.Coded sc none (s.skip 3) c test s₁)
      (hy : Coded sc s₁ yes code₁ s₂) (hn : Coded sc s₂ no code₂ s₃) :
      Coded sc s (.ifElse c .passed yes no) (Piece.ifElse s.labels test code₁ code₂) s₃
  | whileDo {s s₁ s₂ : Stock} {c : Cond} {body : Stmt} {test : List TestLine}
      {code : List Piece} (hc : Cond.Coded sc none (s.skip 3) c test s₁)
      (hb : Coded sc s₁ body code s₂) :
      Coded sc s (.whileDo c .passed body) (Piece.whileDo s.labels test code) s₂
  | repeatUntil {s s₁ s₂ : Stock} {body : Stmt} {c : Cond} {test : List TestLine}
      {code : List Piece} (hb : Coded sc (s.skip 2) body code s₁)
      (hc : Cond.Coded sc none s₁ c test s₂) :
      Coded sc s (.repeatUntil body c) (Piece.repeatUntil s.labels code test) s₂
  | forDo {s s₁ s₂ s₃ s₄ : Stock} {x : Token} {down : Bool} {first last : Expr} {body : Stmt}
      {v start bound limit : Var} {lines₁ lines₂ : List Line} {code : List Piece}
      (hx : sc.find? x.text = some (.scalar v)) (hf : Expr.Coded sc s first lines₁ start s₁)
      (hl : Expr.Coded sc (s₁.release start) last lines₂ bound s₂)
      (ht : s₂.Takes v.width limit s₃) (hw : limit.width = v.width)
      (hb : Coded sc (((s₃.release bound).skip 4).skip
        (Code.relationLabels (.past down) v)) body code s₄) :
      Coded sc s (.forDo x down first last .passed body)
        (Piece.ofLines (lines₁ ++ (Code.resize start v ++ (freeLines start ++ (lines₂
          ++ (Code.resize bound limit ++ freeLines bound)))))
          ++ (Piece.forLoop s₃.labels (Code.relationTest (.past down) v limit (s₃.labels + 4)) code
            (Code.relationTest .eq v limit s₄.labels) (Code.advanceCounter down v)
          ++ Piece.ofLines (freeLines limit)))
        ((s₄.skip (Code.relationLabels .eq v)).release limit)
  | step {s : Stock} {op : StepOp} {x : Token} {v : Var}
      (hx : sc.find? x.text = some (.scalar v)) :
      Coded sc s (.step op x) (Piece.ofLines (op.code v)) s
  | output {s s' : Stock} {port : Nat} {value : Expr} {lines : List Line} {v : Var}
      (hv : Expr.Coded sc s value lines v s') :
      Coded sc s (.output port value)
        (Piece.ofLines (lines ++ (Code.output port v ++ freeLines v))) (s'.release v)
  | input {s : Stock} {x : Token} {port : Nat} {v : Var}
      (hx : sc.find? x.text = some (.scalar v)) :
      Coded sc s (.input x .passed port) (Piece.ofLines (Code.input port v)) s

/-! ### Blocks -/

/-- Whether a block has no inline assembly, in its procedures neither. -/
def Block.asmFree : Block → Bool
  | fault _ => true
  | code s => s.asmFree
  | declare _ _ _ rest => rest.asmFree
  | procedure _ body _ rest => body.asmFree && rest.asmFree

/-- A procedure as its declaration leaves it. -/
structure Heading where
  name : String
  selector : Var
  pos : Pos

/-- What the code of a block depends on: the names in scope, the procedures declared so far,
visible or not, and the stock. -/
structure Outline where
  scope : Scope
  headings : List Heading
  stock : Stock

namespace Outline

/-- A variable in its cells came into scope. -/
def declare (o : Outline) (sc : Scope) (memory : Allocator) : Outline :=
  { o with scope := sc, stock := { o.stock with memory := memory } }

/-- A procedure came into scope, and its body is open. -/
def openBody (o : Outline) (sc : Scope) (memory : Allocator) (h : Heading) : Outline :=
  ⟨sc.enter, o.headings ++ [h], { o.stock with memory := memory }⟩

/-- The innermost block is closed. -/
def leave (o : Outline) : Outline := { o with scope := o.scope.leave }

end Outline

/-- The pieces are the code of a block with the given label and name. -/
inductive Block.Coded : String → String → Outline → Block → List Piece → Outline → Prop
  | code {label name : String} {o : Outline} {st : Stmt} {code : List Piece} {s' : Stock}
      (h : Stmt.Coded o.scope o.stock st code s') :
      Coded label name o (.code st) (.line (.label label) :: code) { o with stock := s' }
  | scalar {label name : String} {o o' : Outline} {x : Token} {width : Width} {rest : Block}
      {code : List Piece} {v : Var} {memory : Allocator} {sc : Scope}
      (hd : (o.stock.memory.locate x.pos).defineVar x.text width name = (.ok v, memory))
      (hs : o.scope.declare? (.scalar v) = some sc)
      (hr : Coded label name (o.declare sc memory) rest code o') :
      Coded label name o (.declare x width none rest) code o'
  | array {label name : String} {o o' : Outline} {x : Token} {width : Width} {len : Nat}
      {rest : Block} {code : List Piece} {a : ArrayVar} {memory : Allocator} {sc : Scope}
      (hd : (o.stock.memory.locate x.pos).defineArray x.text width len name = (.ok a, memory))
      (hs : o.scope.declare? (.array a) = some sc)
      (hr : Coded label name (o.declare sc memory) rest code o') :
      Coded label name o (.declare x width (some len) rest) code o'
  | procedure {label name : String} {o o₁ o₂ : Outline} {p : Token} {body rest : Block}
      {code₁ code₂ : List Piece} {selector : Var} {memory : Allocator} {sc : Scope}
      (hn : ∀ q ∈ o.headings, q.name ≠ p.text)
      (hs : o.scope.declareProcedure? p.text = some sc)
      (hd : (o.stock.memory.locate p.pos).defineVar ("$procret_" ++ p.text) .nibble ""
        = (.ok selector, memory))
      (hb : Coded (Gen.procedureLabel p.text) p.text
        (o.openBody sc memory ⟨p.text, selector, p.pos⟩) body code₁ o₁)
      (hr : Coded label name o₁.leave rest code₂ o₂) :
      Coded label name o (.procedure p body .passed rest)
        (code₁ ++ (.finish p.text :: .line (.endProc p.text) :: code₂)) o₂

/-! ### Calls and returns -/

namespace Piece

/-- The return labels of the calls of a procedure. -/
def returns (code : List Piece) (name : String) : List String :=
  code.filterMap fun
    | call p ret => if p = name then some ret else none
    | _ => none

/-- The lines of a piece, given the selectors and the return labels of the procedures. -/
def expand (selector : String → Var) (returns : String → List String) : Piece → List Line
  | line l => [l]
  | call p ret =>
      (if 1 < (returns p).length then Code.selectCall (selector p) ((returns p).idxOf ret) else [])
        ++ [Code.jump .jmp (Gen.procedureLabel p)]
  | finish p =>
      if (returns p).isEmpty then [.inst .nop] else Code.returnDispatch (selector p) (returns p)

end Piece

/-- The selector of a procedure. -/
def Outline.selector (o : Outline) (name : String) : Var :=
  ((o.headings.find? (·.name == name)).map (·.selector)).getD default

/-- The lines of a finished program. -/
def Outline.lines (o : Outline) (code : List Piece) : List Line :=
  code.flatMap (Piece.expand o.selector (Piece.returns code))

end NibblePascal
