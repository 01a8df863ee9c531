import NibblePascal.Program.Tree
import NibblePascal.Storage.Allocator
import NibblePascal.Token.Number

/-!
# Reading programs

A program is read by recursive descent.  Every reader takes tokens and answers a tree with
the tokens after it.  After a fault nothing is left to read: the tokens after it are none, so
the rest of the tree comes out as further faults that nobody gets to see.

A name is read according to what it stands for, since `x` and `a[i]` begin alike; the
`Context` knows the arrays in scope.

The readers of nested constructs recurse on a bound for the depth.  A construct inside
another begins at a later token, so the number of tokens is such a bound, and where it is used
up there are no tokens left.
-/

namespace NibblePascal

/-- What reading depends on besides the tokens. -/
structure Context where
  /-- Where the end of the text is reported. -/
  finish : Pos
  /-- The arrays in scope. -/
  arrays : List String := []
  deriving DecidableEq, Repr, Inhabited

namespace Context

/-! ### Tokens -/

/-- The position of the next token, or of the end. -/
def here (c : Context) : List Token → Pos
  | t :: _ => t.pos
  | [] => c.finish

/-- The fault of a next token that cannot stand here. -/
def unexpected (c : Context) : List Token → Fault
  | t :: _ => .source t.pos (.unexpectedSymbol t.text)
  | [] => .source c.finish .unexpectedEnd

/-- Take the next token, which has to be of one of the accepted kinds. -/
def expectAny (c : Context) (accepts : Kind → Bool) (ts : List Token) :
    Except Fault (Token × List Token) :=
  match ts with
  | t :: rest => if accepts t.kind then .ok (t, rest) else .error (c.unexpected ts)
  | [] => .error (c.unexpected ts)

/-- Take the next token, which has to be of the given kind. -/
def expect (c : Context) (kind : Kind) (ts : List Token) : Except Fault (Token × List Token) :=
  c.expectAny (· == kind) ts

/-- Pass a fixed word. -/
def gate (c : Context) (kind : Kind) (ts : List Token) : Gate × List Token :=
  match c.expect kind ts with
  | .ok (_, rest) => (.passed, rest)
  | .error why => (.blocked why, [])

/-- The kind of the next token. -/
def nextKind? : List Token → Option Kind
  | t :: _ => some t.kind
  | [] => none

/-- Whether the next token is of the given kind. -/
def nextIs (kind : Kind) (ts : List Token) : Bool := nextKind? ts == some kind

/-- The tokens after the next one, if that is of the given kind. -/
def accept (kind : Kind) (ts : List Token) : Option (List Token) :=
  if nextIs kind ts then some ts.tail else none

/-! ### Expressions -/

/-- The operators of sums. -/
def sumOp? : Kind → Option BinaryOp
  | .plus => some .add
  | .minus => some .sub
  | _ => none

/-- The operators of products. -/
def productOp? : Kind → Option BinaryOp
  | .star => some .mul
  | .slash => some .div
  | .percent => some .mod
  | .ampersand => some .and
  | .pipe => some .or
  | .caret => some .xor
  | _ => none

/-- The next token as one of some operators. -/
def nextOp? (op? : Kind → Option BinaryOp) (ts : List Token) : Option BinaryOp :=
  (nextKind? ts).bind op?

/-- A reader of trees. -/
abbrev Reader (α : Type) := List Token → α × List Token

/-- A factor; `sub` reads a nested expression. -/
def factor (c : Context) (sub : Reader Expr) : Reader Expr
  | [] => (.fault (c.unexpected []), [])
  | t :: ts =>
      match t.kind with
      | .name =>
          if c.arrays.contains t.text then
            match c.expect .lbracket ts with
            | .error why => (.fault why, [])
            | .ok (_, ts) =>
                let (index, ts) := sub ts
                let (close, ts) := c.gate .rbracket ts
                (.element t index close, ts)
          else (.scalar t, ts)
      | .number =>
          match t.numberValue with
          | .ok value => (.literal t.pos value, ts)
          | .error why => (.fault why, [])
      | .lparen =>
          let (e, ts) := sub ts
          let (close, ts) := c.gate .rparen ts
          (.paren e close, ts)
      | .kwLo | .kwHi =>
          match c.expect .lparen ts with
          | .error why => (.fault why, [])
          | .ok (_, ts) =>
              match c.expect .name ts with
              | .error why => (.fault why, [])
              | .ok (x, ts) =>
                  let (close, ts) := c.gate .rparen ts
                  (.half t.pos (t.kind == .kwHi) x close, ts)
      | _ => (.fault (c.unexpected (t :: ts)), [])

/-- The rest of a chain of at most `count` operators, which associate to the left. -/
def chain (op? : Kind → Option BinaryOp) (operand : Reader Expr) :
    Nat → Expr → Reader Expr
  | 0, lhs, ts => (lhs, ts)
  | count + 1, lhs, ts =>
      match nextOp? op? ts with
      | none => (lhs, ts)
      | some op =>
          let (rhs, ts) := operand ts.tail
          chain op? operand count (.binary op lhs rhs) ts

/-- A term: factors with the operators of products. -/
def term (c : Context) (sub : Reader Expr) : Reader Expr := fun ts =>
  let (first, ts) := c.factor sub ts
  chain productOp? (c.factor sub) ts.length first ts

/-- The term after a leading minus sign. -/
def negated (c : Context) (sub : Reader Expr) : Reader Expr := fun ts =>
  let product :=
    let (e, ts) := c.term sub ts
    (Expr.negate e, ts)
  match ts with
  | t :: rest =>
      if t.kind == .number then
        match t.numberValue with
        | .error why => (.fault why, [])
        | .ok value =>
            if 0x8000 < value then
              (.fault (.source t.pos (.numberTooLarge ("-" ++ t.text))), [])
            else if (nextOp? productOp? rest).isNone then (.negLiteral t.pos value, rest)
            else product
      else product
  | [] => product

/-- A sum, with an optional sign before its first term. -/
def sum (c : Context) (sub : Reader Expr) : Reader Expr := fun ts =>
  let (first, ts) :=
    match nextOp? sumOp? ts with
    | some .sub => c.negated sub ts.tail
    | some _ => c.term sub ts.tail
    | none => c.term sub ts
  chain sumOp? (c.term sub) ts.length first ts

/-- An expression nested at most `depth` deep. -/
def exprWithin (c : Context) : Nat → Reader Expr
  | 0, ts => (.fault (c.unexpected ts), [])
  | depth + 1, ts => c.sum (c.exprWithin depth) ts

/-- An expression. -/
def expr (c : Context) : Reader Expr := fun ts => c.exprWithin ts.length ts

/-! ### Conditions -/

/-- The relations. -/
def relation? : Kind → Option Relation
  | .eq => some .eq
  | .hash => some .ne
  | .gt => some .gt
  | .ge => some .ge
  | .lt => some .lt
  | .le => some .le
  | _ => none

/-- Whether the next token is a zero that begins no larger expression. -/
def loneZero : List Token → Bool
  | t :: ts =>
      t.kind == .number
        && (match t.numberValue with
          | .ok 0 => true
          | _ => false)
        && (nextOp? sumOp? ts).isNone && (nextOp? productOp? ts).isNone
  | [] => false

/-- A relation between two expressions. -/
def comparison (c : Context) : Reader Cond := fun ts =>
  let (lhs, ts) := c.expr ts
  match (nextKind? ts).bind relation? with
  | none => (.compare lhs .eq (.fault (.source (c.here ts) .relationExpected)), [])
  | some rel =>
      let ts := ts.tail
      if (rel == .gt || rel == .ne) && loneZero ts then (.nonzero lhs, ts.tail)
      else
        let (rhs, ts) := c.expr ts
        (.compare lhs rel rhs, ts)

/-- A condition without `and` and `or`; `sub` reads a condition in curly brackets. -/
def simple (c : Context) (sub : Reader Cond) : Reader Cond := fun ts =>
  match accept .lcurly ts with
  | some ts =>
      let (inner, ts) := sub ts
      let (close, ts) := c.gate .rcurly ts
      (.group inner close, ts)
  | none =>
      match accept .kwOdd ts with
      | some ts =>
          let (e, ts) := c.expr ts
          (.odd e, ts)
      | none => c.comparison ts

/-- Operands joined by a word at most `count` times, nested to the right. -/
def joined (word : Kind) (join : Cond → Cond → Cond) (operand : Reader Cond) :
    Nat → Reader Cond
  | 0, ts => operand ts
  | count + 1, ts =>
      let (lhs, ts) := operand ts
      match accept word ts with
      | none => (lhs, ts)
      | some ts =>
          let (rhs, ts) := joined word join operand count ts
          (join lhs rhs, ts)

/-- A conjunction of simple conditions. -/
def conjunction (c : Context) (sub : Reader Cond) : Reader Cond := fun ts =>
  joined .kwAnd .and (c.simple sub) ts.length ts

/-- A condition nested at most `depth` deep. -/
def condWithin (c : Context) : Nat → Reader Cond
  | 0, ts => (.fault (c.unexpected ts), [])
  | depth + 1, ts => joined .kwOr .or (c.conjunction (c.condWithin depth)) ts.length ts

/-- A condition. -/
def cond (c : Context) : Reader Cond := fun ts => c.condWithin ts.length ts

/-! ### Statements -/

/-- A number. -/
def number (c : Context) (ts : List Token) : Except Fault (Nat × List Token) := do
  let (t, ts) ← c.expect .number ts
  let value ← t.numberValue
  return (value, ts)

/-- Numbers separated by commas, at most `count` commas. -/
def numbers (c : Context) : Nat → List Token → Except Fault (List Nat × List Token)
  | 0, ts => do
      let (value, ts) ← c.number ts
      return ([value], ts)
  | count + 1, ts => do
      let (value, ts) ← c.number ts
      match accept .comma ts with
      | some ts =>
          let (values, ts) ← c.numbers count ts
          return (value :: values, ts)
      | none => return ([value], ts)

/-- The number of a port. -/
def port (c : Context) (ts : List Token) : Except Fault (Nat × List Token) := do
  let (t, ts) ← c.expect .number ts
  let value ← t.numberValue
  if 15 < value then throw (.source t.pos (.portOutOfRange value))
  return (value, ts)

/-- What is assigned to the whole array `arr`. -/
def arrayValue (c : Context) (arr : Token) : Reader Stmt := fun ts =>
  match accept .lparen ts with
  | some ts =>
      match (do
        let (values, ts) ← c.numbers ts.length ts
        let (_, ts) ← c.expect .rparen ts
        return (values, ts)) with
      | .ok (values, ts) => (.fillList arr values, ts)
      | .error why => (.fault why, [])
  | none =>
      match c.expectAny (fun k => k == .name || k == .text || k == .number) ts with
      | .ok (t, ts) => (if t.kind == .name then .copyArray arr t else .fillText arr t, ts)
      | .error why => (.fault why, [])

/-- The assignment to the name `x`. -/
def assignment (c : Context) (x : Token) : Reader Stmt := fun ts =>
  if c.arrays.contains x.text then
    match accept .lbracket ts with
    | some ts =>
        let (index, ts) := c.expr ts
        match (do
          let (_, ts) ← c.expect .rbracket ts
          let (_, ts) ← c.expect .assign ts
          return ts) with
        | .ok ts =>
            let (value, ts) := c.expr ts
            (.setElement x index value, ts)
        | .error why => (.setElement x index (.fault why), [])
    | none =>
        match c.expect .assign ts with
        | .ok (_, ts) => c.arrayValue x ts
        | .error why => (.fault why, [])
  else
    match c.expect .assign ts with
    | .ok (_, ts) =>
        let (value, ts) := c.expr ts
        (.assign x value, ts)
    | .error why => (.assign x (.fault why), [])

/-- Statements up to a closing word, at most `count` of them or of the semicolons between
them. -/
def statements (sub : Reader Stmt) (stop : Kind) : Nat → Reader Stmt
  | 0, ts => (.skip, ts)
  | count + 1, ts =>
      if nextIs stop ts then (.skip, ts)
      else
        match accept .semicolon ts with
        | some ts => statements sub stop count ts
        | none =>
            let (first, ts) := sub ts
            match accept .semicolon ts with
            | some ts =>
                let (rest, ts) := statements sub stop count ts
                (.seq first rest, ts)
            | none => (.seq first .skip, ts)

/-- Lines of inline assembly and their `end`. -/
def inlineAsm (c : Context) : Reader Stmt := fun ts =>
  let (lines, ts) := ts.span (·.kind == .asmLine)
  let (close, ts) := c.gate .kwEnd ts
  (.asm lines close, ts)

/-- A conditional statement after its `if`. -/
def conditional (c : Context) (sub : Reader Stmt) : Reader Stmt := fun ts =>
  let (test, ts) := c.cond ts
  let (gate, ts) := c.gate .kwThen ts
  let (yes, ts) := sub ts
  match accept .kwElse ts with
  | some ts =>
      let (no, ts) := sub ts
      (.ifElse test gate yes no, ts)
  | none => (.ifThen test gate yes, ts)

/-- A loop after its `while`. -/
def whileLoop (c : Context) (sub : Reader Stmt) : Reader Stmt := fun ts =>
  let (test, ts) := c.cond ts
  let (gate, ts) := c.gate .kwDo ts
  let (body, ts) := sub ts
  (.whileDo test gate body, ts)

/-- A loop after its `repeat`. -/
def repeatLoop (c : Context) (sub : Reader Stmt) : Reader Stmt := fun ts =>
  let (body, ts) := statements sub .kwUntil (ts.length + 1) ts
  match c.expect .kwUntil ts with
  | .ok (_, ts) =>
      let (test, ts) := c.cond ts
      (.repeatUntil body test, ts)
  | .error why => (.repeatUntil body (.fault why), [])

/-- A counted loop over `x` after its assignment sign. -/
def countedLoop (c : Context) (sub : Reader Stmt) (x : Token) : Reader Stmt := fun ts =>
  let (first, ts) := c.expr ts
  match c.expectAny (fun k => k == .kwTo || k == .kwDownto) ts with
  | .ok (direction, ts) =>
      let (last, ts) := c.expr ts
      let (gate, ts) := c.gate .kwDo ts
      let (body, ts) := sub ts
      (.forDo x (direction.kind == .kwDownto) first last gate body, ts)
  | .error _ =>
      let why := Fault.source (c.here ts) .directionExpected
      (.forDo x false first (.fault why) .passed .skip, [])

/-- A loop after its `for`. -/
def forLoop (c : Context) (sub : Reader Stmt) : Reader Stmt := fun ts =>
  match c.expect .name ts with
  | .error why => (.fault why, [])
  | .ok (x, ts) =>
      match c.expect .assign ts with
      | .ok (_, ts) => c.countedLoop sub x ts
      | .error why => (.forDo x false (.fault why) (.fault why) .passed .skip, [])

/-- A statement that changes a scalar in place, after its first word. -/
def stepStmt (c : Context) (op : StepOp) : Reader Stmt := fun ts =>
  match c.expect .name ts with
  | .ok (x, ts) => (.step op x, ts)
  | .error why => (.fault why, [])

/-- An output statement after its first word. -/
def outputStmt (c : Context) : Reader Stmt := fun ts =>
  match (do
    let (port, ts) ← c.port ts
    let (_, ts) ← c.expect .comma ts
    return (port, ts)) with
  | .ok (port, ts) =>
      let (value, ts) := c.expr ts
      (.output port value, ts)
  | .error why => (.fault why, [])

/-- An input statement after its first word. -/
def inputStmt (c : Context) : Reader Stmt := fun ts =>
  match c.expect .name ts with
  | .error why => (.fault why, [])
  | .ok (x, ts) =>
      match (do
        let (_, ts) ← c.expect .comma ts
        c.port ts) with
      | .ok (port, ts) => (.input x .passed port, ts)
      | .error why => (.input x (.blocked why) 0, [])

/-- A call statement after its first word. -/
def callStmt (c : Context) : Reader Stmt := fun ts =>
  match c.expect .name ts with
  | .ok (p, ts) => (.call p, ts)
  | .error why => (.fault why, [])

/-- Statements between `begin` and `end`, after the first of them. -/
def compound (c : Context) (sub : Reader Stmt) : Reader Stmt := fun ts =>
  let (body, ts) := statements sub .kwEnd (ts.length + 1) ts
  let (close, ts) := c.gate .kwEnd ts
  (.block body close, ts)

/-- A statement; `sub` reads a nested statement. -/
def statement (c : Context) (sub : Reader Stmt) : Reader Stmt
  | [] => (.fault (c.unexpected []), [])
  | t :: ts =>
      match t.kind with
      | .name => c.assignment t ts
      | .kwCall => c.callStmt ts
      | .kwBegin => c.compound sub ts
      | .kwAsm => c.inlineAsm ts
      | .kwIf => c.conditional sub ts
      | .kwWhile => c.whileLoop sub ts
      | .kwRepeat => c.repeatLoop sub ts
      | .kwFor => c.forLoop sub ts
      | .kwShr => c.stepStmt .shr ts
      | .kwShl => c.stepStmt .shl ts
      | .kwInc => c.stepStmt .inc ts
      | .kwDec => c.stepStmt .dec ts
      | .kwNop => (.nop, ts)
      | .kwOutp => c.outputStmt ts
      | .kwInp => c.inputStmt ts
      | _ => (.fault (.source t.pos (.unknownStatement t.text)), [])

/-- A statement nested at most `depth` deep. -/
def stmtWithin (c : Context) : Nat → Reader Stmt
  | 0, ts => (.fault (c.unexpected ts), [])
  | depth + 1, ts => c.statement (c.stmtWithin depth) ts

/-- A statement. -/
def stmt (c : Context) : Reader Stmt := fun ts => c.stmtWithin ts.length ts

/-! ### Declarations -/

/-- A constant and its value, which is checked and has no further effect. -/
def constant (c : Context) (ts : List Token) : Except Fault (List Token) := do
  let (_, ts) ← c.expect .name ts
  let (_, ts) ← c.expect .eq ts
  let (_, ts) ← c.number ts
  return ts

/-- Constants up to their semicolon, at most `count` commas. -/
def constants (c : Context) : Nat → List Token → Except Fault (List Token)
  | 0, ts => do
      let ts ← c.constant ts
      let (_, ts) ← c.expect .semicolon ts
      return ts
  | count + 1, ts => do
      let ts ← c.constant ts
      match accept .comma ts with
      | some ts => c.constants count ts
      | none =>
          let (_, ts) ← c.expect .semicolon ts
          return ts

/-- Names separated by commas, at most `count` commas. -/
def names (c : Context) : Nat → List Token → Except Fault (List Token × List Token)
  | 0, ts => do
      let (x, ts) ← c.expect .name ts
      return ([x], ts)
  | count + 1, ts => do
      let (x, ts) ← c.expect .name ts
      match accept .comma ts with
      | some ts =>
          let (xs, ts) ← c.names count ts
          return (x :: xs, ts)
      | none => return ([x], ts)

/-- The length of an array in brackets, if there is one. -/
def arrayLength (c : Context) (width : Width) (ts : List Token) :
    Except Fault (Option Nat × List Token) :=
  match accept .lbracket ts with
  | none => .ok (none, ts)
  | some ts => do
      let (t, ts) ← c.expect .number ts
      let len ← t.numberValue
      let (_, ts) ← c.expect .rbracket ts
      if len == 0 then throw (.source t.pos .emptyArray)
      if slotSize < len * width.cells then throw (.source t.pos (.arrayTooLarge len width))
      return (some len, ts)

/-- A declared name with its type. -/
structure Declared where
  x : Token
  width : Width
  len : Option Nat
  deriving DecidableEq, Repr, Inhabited

/-- Names and their common type. -/
def declaration (c : Context) (ts : List Token) :
    Except Fault (List Declared × List Token) := do
  let (xs, ts) ← c.names ts.length ts
  let (_, ts) ← c.expect .colon ts
  let (t, ts) ← c.expect .typeName ts
  match Width.ofKeyword? t.text with
  | none => throw (.source t.pos (.unknownType t.text))
  | some width =>
      let (len, ts) ← c.arrayLength width ts
      return (xs.map (⟨·, width, len⟩), ts)

/-- Whether the tokens begin like a declaration. -/
def startsDeclaration : List Token → Bool
  | x :: t :: _ => x.kind == .name && (t.kind == .colon || t.kind == .comma)
  | _ => false

/-- The declarations of a `var` section, at most `count` groups, and the tokens after it or
the fault that ends it. -/
def varSection (c : Context) : Nat → List Token → List Declared × Except Fault (List Token)
  | 0, ts => ([], .error (c.unexpected ts))
  | count + 1, ts =>
      match c.declaration ts with
      | .error why => ([], .error why)
      | .ok (ds, ts) =>
          match accept .comma ts with
          | some ts =>
              let (more, rest) := c.varSection count ts
              (ds ++ more, rest)
          | none =>
              match c.expect .semicolon ts with
              | .error why => (ds, .error why)
              | .ok (_, ts) =>
                  if startsDeclaration ts then
                    let (more, rest) := c.varSection count ts
                    (ds ++ more, rest)
                  else (ds, .ok ts)

/-- The context after declarations. -/
def declare (c : Context) (ds : List Declared) : Context :=
  { c with arrays := (ds.filter (·.len.isSome)).map (·.x.text) ++ c.arrays }

/-- A block that begins with declarations. -/
def declareAll (ds : List Declared) (rest : Block) : Block :=
  ds.foldr (fun d rest => .declare d.x d.width d.len rest) rest

/-- The name of a procedure and the semicolon after it. -/
def heading (c : Context) (ts : List Token) : Except Fault (Token × List Token) := do
  let (p, ts) ← c.expect .name ts
  let (_, ts) ← c.expect .semicolon ts
  return (p, ts)

/-- A block with at most `count` sections and nested blocks. -/
def blockWithin : Nat → Context → Reader Block
  | 0, c, ts =>
      let (s, ts) := c.stmt ts
      (.code s, ts)
  | count + 1, c, ts =>
      match nextKind? ts with
      | some .kwConst =>
          match c.constants ts.length ts.tail with
          | .ok ts => blockWithin count c ts
          | .error why => (.fault why, [])
      | some .kwVar =>
          let (ds, rest) := c.varSection ts.length ts.tail
          match rest with
          | .ok ts =>
              let (block, ts) := blockWithin count (c.declare ds) ts
              (declareAll ds block, ts)
          | .error why => (declareAll ds (.fault why), [])
      | some .kwProcedure =>
          match c.heading ts.tail with
          | .ok (p, ts) =>
              let (body, ts) := blockWithin count c ts
              let (close, ts) := c.gate .semicolon ts
              let (rest, ts) := blockWithin count c ts
              (.procedure p body close rest, ts)
          | .error why => (.fault why, [])
      | _ =>
          let (s, ts) := c.stmt ts
          (.code s, ts)

end Context

/-- Where the end of a text is reported: at its last token, or at the first line of the file
if there is none. -/
def endOfTokens (file : String) (ts : List Token) : Pos :=
  match ts.getLast? with
  | some t => t.pos
  | none => ⟨file, 1⟩

/-- The program that tokens spell.  Tokens after the period are not looked at. -/
def Program.ofTokens (file : String) (tokens : List Token) : Program :=
  let ts := tokens.filter (!·.isIgnorable)
  let c : Context := { finish := endOfTokens file ts }
  let (block, rest) := Context.blockWithin ts.length c ts
  ⟨block, (c.gate .period rest).1⟩

end NibblePascal
