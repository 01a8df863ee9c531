import NibblePascal.Program.Reader

/-!
# The grammar

Which tokens spell a tree, without regard to how trees are read.

* `Expr.Spelled arrays rank ts e`: the tokens `ts` spell the expression `e`.  The operators of
  products bind tighter than those of sums, and both associate to the left; a sign stands before
  the first term of a sum only;
* `Cond.Spelled`: `and` binds tighter than `or`, and curly brackets group;
* `Stmt.Spelled`: an `else` belongs to the nearest `if`;
* `Block.Spelled` and `Program.Spelled`: declarations, the statement after them and the period.

A name is spelled alike whether it stands for a scalar or an array, so the names of arrays are a
parameter.
-/

namespace NibblePascal

/-! ### Expressions -/

/-- How tightly the outermost operator binds. -/
inductive Rank
  /-- No operator stands outside brackets. -/
  | atom
  | product
  | sum

/-- The sign of an operator. -/
def BinaryOp.sign : BinaryOp → Kind
  | add => .plus
  | sub => .minus
  | and => .ampersand
  | or => .pipe
  | xor => .caret
  | mul => .star
  | div => .slash
  | mod => .percent

/-- The rank of what an operator makes. -/
def BinaryOp.rank : BinaryOp → Rank
  | add | sub => .sum
  | _ => .product

/-- The tokens spell an expression of a rank. -/
inductive Expr.Spelled (arrays : List String) : Rank → List Token → Expr → Prop
  | scalar {x : Token} (hx : x.kind = .name) (ha : x.text ∉ arrays) :
      Spelled arrays .atom [x] (.scalar x)
  | literal {t : Token} {n : Nat} (ht : t.kind = .number) (hn : t.numberValue = .ok n) :
      Spelled arrays .atom [t] (.literal t.pos n)
  | element {x l r : Token} {ts : List Token} {index : Expr} (hx : x.kind = .name)
      (ha : x.text ∈ arrays) (hl : l.kind = .lbracket) (hi : Spelled arrays .sum ts index)
      (hr : r.kind = .rbracket) :
      Spelled arrays .atom (x :: l :: (ts ++ [r])) (.element x index .passed)
  | half {t l x r : Token} (upper : Bool) (ht : t.kind = if upper then .kwHi else .kwLo)
      (hl : l.kind = .lparen) (hx : x.kind = .name) (hr : r.kind = .rparen) :
      Spelled arrays .atom [t, l, x, r] (.half t.pos upper x .passed)
  | paren {l r : Token} {ts : List Token} {e : Expr} (hl : l.kind = .lparen)
      (he : Spelled arrays .sum ts e) (hr : r.kind = .rparen) :
      Spelled arrays .atom (l :: (ts ++ [r])) (.paren e .passed)
  | factor {ts : List Token} {e : Expr} (h : Spelled arrays .atom ts e) :
      Spelled arrays .product ts e
  | multiply {t : Token} {ts ts' : List Token} {op : BinaryOp} {a b : Expr}
      (ha : Spelled arrays .product ts a) (hop : op.rank = .product) (ht : t.kind = op.sign)
      (hb : Spelled arrays .atom ts' b) :
      Spelled arrays .product (ts ++ t :: ts') (.binary op a b)
  | term {ts : List Token} {e : Expr} (h : Spelled arrays .product ts e) :
      Spelled arrays .sum ts e
  | positive {t : Token} {ts : List Token} {e : Expr} (ht : t.kind = .plus)
      (h : Spelled arrays .product ts e) : Spelled arrays .sum (t :: ts) e
  | negative {t : Token} {ts : List Token} {e : Expr} (ht : t.kind = .minus)
      (h : Spelled arrays .product ts e) : Spelled arrays .sum (t :: ts) (.negate e)
  | negLiteral {t n : Token} {value : Nat} (ht : t.kind = .minus) (hn : n.kind = .number)
      (hv : n.numberValue = .ok value) (hle : value ≤ 0x8000) :
      Spelled arrays .sum [t, n] (.negLiteral n.pos value)
  | add {t : Token} {ts ts' : List Token} {op : BinaryOp} {a b : Expr}
      (ha : Spelled arrays .sum ts a) (hop : op.rank = .sum) (ht : t.kind = op.sign)
      (hb : Spelled arrays .product ts' b) :
      Spelled arrays .sum (ts ++ t :: ts') (.binary op a b)

/-! ### Conditions -/

/-- The sign of a relation. -/
def Relation.sign : Relation → Kind
  | eq => .eq
  | ne => .hash
  | gt => .gt
  | ge => .ge
  | lt => .lt
  | le => .le

/-- The tokens spell a condition of a rank: a conjunction is a product and a disjunction a sum. -/
inductive Cond.Spelled (arrays : List String) : Rank → List Token → Cond → Prop
  | compare {t : Token} {ts ts' : List Token} {a b : Expr} {rel : Relation}
      (ha : a.Spelled arrays .sum ts) (ht : t.kind = rel.sign) (hb : b.Spelled arrays .sum ts') :
      Spelled arrays .atom (ts ++ t :: ts') (.compare a rel b)
  | nonzero {t z : Token} {ts : List Token} {e : Expr} (he : e.Spelled arrays .sum ts)
      (ht : t.kind = .gt ∨ t.kind = .hash) (hz : z.kind = .number) (hv : z.numberValue = .ok 0) :
      Spelled arrays .atom (ts ++ [t, z]) (.nonzero e)
  | odd {t : Token} {ts : List Token} {e : Expr} (ht : t.kind = .kwOdd)
      (he : e.Spelled arrays .sum ts) : Spelled arrays .atom (t :: ts) (.odd e)
  | group {l r : Token} {ts : List Token} {c : Cond} (hl : l.kind = .lcurly)
      (hc : Spelled arrays .sum ts c) (hr : r.kind = .rcurly) :
      Spelled arrays .atom (l :: (ts ++ [r])) (.group c .passed)
  | simple {ts : List Token} {c : Cond} (h : Spelled arrays .atom ts c) :
      Spelled arrays .product ts c
  | and {t : Token} {ts ts' : List Token} {c d : Cond} (hc : Spelled arrays .atom ts c)
      (ht : t.kind = .kwAnd) (hd : Spelled arrays .product ts' d) :
      Spelled arrays .product (ts ++ t :: ts') (.and c d)
  | conjunction {ts : List Token} {c : Cond} (h : Spelled arrays .product ts c) :
      Spelled arrays .sum ts c
  | or {t : Token} {ts ts' : List Token} {c d : Cond} (hc : Spelled arrays .product ts c)
      (ht : t.kind = .kwOr) (hd : Spelled arrays .sum ts' d) :
      Spelled arrays .sum (ts ++ t :: ts') (.or c d)

/-! ### Statements -/

/-- Numbers and the commas between them. -/
inductive SpelledNumbers : List Token → List Nat → Prop
  | last {t : Token} {n : Nat} (ht : t.kind = .number) (hn : t.numberValue = .ok n) :
      SpelledNumbers [t] [n]
  | more {t comma : Token} {ts : List Token} {n : Nat} {ns : List Nat} (ht : t.kind = .number)
      (hn : t.numberValue = .ok n) (hc : comma.kind = .comma) (hr : SpelledNumbers ts ns) :
      SpelledNumbers (t :: comma :: ts) (n :: ns)

/-- The first word of a statement that changes a scalar in place. -/
def StepOp.word : StepOp → Kind
  | shr => .kwShr
  | shl => .kwShl
  | inc => .kwInc
  | dec => .kwDec

/-- The word that says which way a counter goes. -/
def directionWord (down : Bool) : Kind := if down then .kwDownto else .kwTo

/-- Whether an `else` could follow and belong to the end of the statement. -/
def Stmt.endsOpen : Stmt → Bool
  | ifThen .. => true
  | ifElse _ _ _ no => no.endsOpen
  | whileDo _ _ body => body.endsOpen
  | forDo _ _ _ _ _ body => body.endsOpen
  | _ => false

/-- A port is a number below sixteen. -/
def SpelledPort (t : Token) (port : Nat) : Prop :=
  t.kind = .number ∧ t.numberValue = .ok port ∧ port < 16

/-- One statement, or statements with semicolons between them. -/
inductive Extent
  | single
  | list

/-- The tokens spell a statement. -/
inductive Stmt.Spelled (arrays : List String) : Extent → List Token → Stmt → Prop
  | nop {t : Token} (ht : t.kind = .kwNop) : Spelled arrays .single [t] .nop
  | block {b e : Token} {ts : List Token} {body : Stmt} (hb : b.kind = .kwBegin)
      (h : Spelled arrays .list ts body) (he : e.kind = .kwEnd) :
      Spelled arrays .single (b :: (ts ++ [e])) (.block body .passed)
  | assign {x t : Token} {ts : List Token} {value : Expr} (hx : x.kind = .name)
      (ha : x.text ∉ arrays) (ht : t.kind = .assign) (hv : value.Spelled arrays .sum ts) :
      Spelled arrays .single (x :: t :: ts) (.assign x value)
  | setElement {x l r t : Token} {ts ts' : List Token} {index value : Expr} (hx : x.kind = .name)
      (ha : x.text ∈ arrays) (hl : l.kind = .lbracket) (hi : index.Spelled arrays .sum ts)
      (hr : r.kind = .rbracket) (ht : t.kind = .assign) (hv : value.Spelled arrays .sum ts') :
      Spelled arrays .single (x :: l :: (ts ++ r :: t :: ts')) (.setElement x index value)
  | fillList {x t l r : Token} {ts : List Token} {values : List Nat} (hx : x.kind = .name)
      (ha : x.text ∈ arrays) (ht : t.kind = .assign) (hl : l.kind = .lparen)
      (hv : SpelledNumbers ts values) (hr : r.kind = .rparen) :
      Spelled arrays .single (x :: t :: l :: (ts ++ [r])) (.fillList x values)
  /-- Whether the text stands in quotes is found out later. -/
  | fillText {x t y : Token} (hx : x.kind = .name) (ha : x.text ∈ arrays) (ht : t.kind = .assign)
      (hy : y.kind = .text ∨ y.kind = .number) : Spelled arrays .single [x, t, y] (.fillText x y)
  | copyArray {x t y : Token} (hx : x.kind = .name) (ha : x.text ∈ arrays) (ht : t.kind = .assign)
      (hy : y.kind = .name) : Spelled arrays .single [x, t, y] (.copyArray x y)
  | call {t p : Token} (ht : t.kind = .kwCall) (hp : p.kind = .name) :
      Spelled arrays .single [t, p] (.call p)
  | asm {t e : Token} {lines : List Token} (ht : t.kind = .kwAsm)
      (hl : ∀ l ∈ lines, l.kind = .asmLine) (he : e.kind = .kwEnd) :
      Spelled arrays .single (t :: (lines ++ [e])) (.asm lines .passed)
  | ifThen {i t : Token} {ts ts' : List Token} {c : Cond} {yes : Stmt} (hi : i.kind = .kwIf)
      (hc : c.Spelled arrays .sum ts) (ht : t.kind = .kwThen)
      (hy : Spelled arrays .single ts' yes) :
      Spelled arrays .single (i :: (ts ++ t :: ts')) (.ifThen c .passed yes)
  | ifElse {i t e : Token} {ts ts₁ ts₂ : List Token} {c : Cond} {yes no : Stmt}
      (hi : i.kind = .kwIf) (hc : c.Spelled arrays .sum ts) (ht : t.kind = .kwThen)
      (hy : Spelled arrays .single ts₁ yes) (hopen : yes.endsOpen = false) (he : e.kind = .kwElse)
      (hn : Spelled arrays .single ts₂ no) :
      Spelled arrays .single (i :: (ts ++ t :: (ts₁ ++ e :: ts₂))) (.ifElse c .passed yes no)
  | whileDo {t d : Token} {ts ts' : List Token} {c : Cond} {body : Stmt} (ht : t.kind = .kwWhile)
      (hc : c.Spelled arrays .sum ts) (hd : d.kind = .kwDo)
      (hb : Spelled arrays .single ts' body) :
      Spelled arrays .single (t :: (ts ++ d :: ts')) (.whileDo c .passed body)
  | repeatUntil {t u : Token} {ts ts' : List Token} {body : Stmt} {c : Cond}
      (ht : t.kind = .kwRepeat) (hb : Spelled arrays .list ts body) (hu : u.kind = .kwUntil)
      (hc : c.Spelled arrays .sum ts') :
      Spelled arrays .single (t :: (ts ++ u :: ts')) (.repeatUntil body c)
  | forDo {t x a d o : Token} {ts₁ ts₂ ts₃ : List Token} {down : Bool} {first last : Expr}
      {body : Stmt} (ht : t.kind = .kwFor) (hx : x.kind = .name) (ha : a.kind = .assign)
      (hf : first.Spelled arrays .sum ts₁) (hd : d.kind = directionWord down)
      (hl : last.Spelled arrays .sum ts₂) (ho : o.kind = .kwDo)
      (hb : Spelled arrays .single ts₃ body) :
      Spelled arrays .single (t :: x :: a :: (ts₁ ++ d :: (ts₂ ++ o :: ts₃)))
        (.forDo x down first last .passed body)
  | step {t x : Token} {op : StepOp} (ht : t.kind = op.word) (hx : x.kind = .name) :
      Spelled arrays .single [t, x] (.step op x)
  | output {t n comma : Token} {ts : List Token} {port : Nat} {value : Expr}
      (ht : t.kind = .kwOutp) (hn : SpelledPort n port) (hc : comma.kind = .comma)
      (hv : value.Spelled arrays .sum ts) :
      Spelled arrays .single (t :: n :: comma :: ts) (.output port value)
  | input {t x comma n : Token} {port : Nat} (ht : t.kind = .kwInp) (hx : x.kind = .name)
      (hc : comma.kind = .comma) (hn : SpelledPort n port) :
      Spelled arrays .single [t, x, comma, n] (.input x .passed port)
  | none : Spelled arrays .list [] .skip
  | gap {t : Token} {ts : List Token} {st : Stmt} (ht : t.kind = .semicolon)
      (h : Spelled arrays .list ts st) : Spelled arrays .list (t :: ts) st
  | last {ts : List Token} {st : Stmt} (h : Spelled arrays .single ts st) :
      Spelled arrays .list ts (.seq st .skip)
  | more {t : Token} {ts ts' : List Token} {first rest : Stmt}
      (hf : Spelled arrays .single ts first) (ht : t.kind = .semicolon)
      (hr : Spelled arrays .list ts' rest) : Spelled arrays .list (ts ++ t :: ts') (.seq first rest)

/-! ### Declarations -/

/-- Names and the commas between them. -/
inductive SpelledNames : List Token → List Token → Prop
  | last {x : Token} (hx : x.kind = .name) : SpelledNames [x] [x]
  | more {x comma : Token} {ts xs : List Token} (hx : x.kind = .name) (hc : comma.kind = .comma)
      (hr : SpelledNames ts xs) : SpelledNames (x :: comma :: ts) (x :: xs)

/-- The length of an array in brackets; nothing for a scalar. -/
inductive SpelledLength (width : Width) : List Token → Option Nat → Prop
  | scalar : SpelledLength width [] none
  | array {l n r : Token} {len : Nat} (hl : l.kind = .lbracket) (hn : n.kind = .number)
      (hv : n.numberValue = .ok len) (hr : r.kind = .rbracket) (hpos : 0 < len)
      (hfits : len * width.cells ≤ slotSize) : SpelledLength width [l, n, r] (some len)

/-- Names with their common type. -/
inductive SpelledDeclaration : List Token → List Context.Declared → Prop
  | mk {ts ls xs : List Token} {colon t : Token} {width : Width} {len : Option Nat}
      (hx : SpelledNames ts xs) (hc : colon.kind = .colon) (ht : t.kind = .typeName)
      (hw : t.text = width.keyword) (hl : SpelledLength width ls len) :
      SpelledDeclaration (ts ++ colon :: t :: ls) (xs.map (⟨·, width, len⟩))

/-- The declarations behind a `var`, up to their last semicolon. -/
inductive SpelledVariables : List Token → List Context.Declared → Prop
  | last {ts : List Token} {t : Token} {ds : List Context.Declared} (h : SpelledDeclaration ts ds)
      (ht : t.kind = .semicolon) : SpelledVariables (ts ++ [t]) ds
  | more {ts ts' : List Token} {t : Token} {ds ds' : List Context.Declared}
      (h : SpelledDeclaration ts ds) (ht : t.kind = .comma ∨ t.kind = .semicolon)
      (hr : SpelledVariables ts' ds') : SpelledVariables (ts ++ t :: ts') (ds ++ ds')

/-- The constants behind a `const`, up to their semicolon. -/
inductive SpelledConstants : List Token → Prop
  | last {x eq n t : Token} {value : Nat} (hx : x.kind = .name) (he : eq.kind = .eq)
      (hn : n.kind = .number) (hv : n.numberValue = .ok value) (ht : t.kind = .semicolon) :
      SpelledConstants [x, eq, n, t]
  | more {x eq n t : Token} {value : Nat} {ts : List Token} (hx : x.kind = .name)
      (he : eq.kind = .eq) (hn : n.kind = .number) (hv : n.numberValue = .ok value)
      (ht : t.kind = .comma) (hr : SpelledConstants ts) :
      SpelledConstants (x :: eq :: n :: t :: ts)

/-- The tokens spell a block. -/
inductive Block.Spelled : List String → List Token → Block → Prop
  | code {arrays : List String} {ts : List Token} {st : Stmt}
      (h : st.Spelled arrays .single ts) : Spelled arrays ts (.code st)
  | constants {arrays : List String} {t : Token} {ts ts' : List Token} {b : Block}
      (ht : t.kind = .kwConst) (hc : SpelledConstants ts) (hb : Spelled arrays ts' b) :
      Spelled arrays (t :: (ts ++ ts')) b
  | vars {arrays : List String} {t : Token} {ts ts' : List Token}
      {ds : List Context.Declared} {b : Block} (ht : t.kind = .kwVar) (hd : SpelledVariables ts ds)
      (hb : Spelled ((ds.filter (·.len.isSome)).map (·.x.text) ++ arrays) ts' b) :
      Spelled arrays (t :: (ts ++ ts')) (Context.declareAll ds b)
  | procedure {arrays : List String} {t p s s' : Token} {ts ts' : List Token} {body rest : Block}
      (ht : t.kind = .kwProcedure) (hp : p.kind = .name) (hs : s.kind = .semicolon)
      (hb : Spelled arrays ts body) (hs' : s'.kind = .semicolon) (hr : Spelled arrays ts' rest) :
      Spelled arrays (t :: p :: s :: (ts ++ s' :: ts')) (.procedure p body .passed rest)

/-- The tokens spell a program: a block and a period.  What follows the period is not looked at,
nor are blanks and comments. -/
inductive Program.Spelled (tokens : List Token) : Program → Prop
  | mk {ts rest : List Token} {period : Token} {b : Block}
      (htokens : tokens.filter (!·.isIgnorable) = ts ++ period :: rest)
      (hb : b.Spelled [] ts) (hp : period.kind = .period) : Spelled tokens ⟨b, .passed⟩

end NibblePascal
