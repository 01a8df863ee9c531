import Mathlib.Data.List.Nodup
import NibblePascal.Proofs.Generation.Condition

/-!
# Generated statements and blocks

While a program is generated, the generator is determined by the pieces of code so far and an
outline: `Outline.generator` spells it out, with the calls of every procedure at the numbers of
their lines.  The code of statements and blocks is stated from one such generator to the next,
`Stmt.coded_of_generate` and `Block.coded_of_generate`.
-/

namespace NibblePascal

/-! ### Pieces and their lines -/

namespace Piece

/-- The line of a piece before calls return. -/
def plain : Piece → Line
  | line l => l
  | call p _ => Code.jump .jmp (Gen.procedureLabel p)
  | finish _ => .inst .nop

@[simp] theorem map_plain_ofLines (lines : List Line) : (ofLines lines).map plain = lines := by
  simp [ofLines, Function.comp_def, plain]

@[simp] theorem ofLines_append (a b : List Line) : ofLines (a ++ b) = ofLines a ++ ofLines b :=
  List.map_append

@[simp] theorem ofLines_nil : ofLines [] = [] := rfl

@[simp] theorem length_ofLines (lines : List Line) : (ofLines lines).length = lines.length :=
  List.length_map ..

/-- The call of a procedure at a line. -/
def callAt (name : String) : Piece × Nat → Option Call
  | (call p ret, i) => if p = name then some ⟨i, ret⟩ else none
  | _ => none

/-- The end of a procedure at a line. -/
def finishAt (name : String) : Piece × Nat → Option EntryId
  | (finish p, i) => if p = name then some i else none
  | _ => none

/-- The calls of a procedure. -/
def calls (code : List Piece) (name : String) : List Call := code.zipIdx.filterMap (callAt name)

/-- The line at the end of a procedure. -/
def finish? (code : List Piece) (name : String) : Option EntryId :=
  (code.zipIdx.filterMap (finishAt name)).getLast?

theorem callAt_line (name : String) (l : Line) (i : Nat) : callAt name (line l, i) = none := rfl

theorem finishAt_line (name : String) (l : Line) (i : Nat) : finishAt name (line l, i) = none := rfl

theorem filterMap_ofLines {α : Type} {f : Piece × Nat → Option α} (hf : ∀ l i, f (line l, i) = none)
    (lines : List Line) (n : Nat) : ((ofLines lines).zipIdx n).filterMap f = [] := by
  induction lines generalizing n with
  | nil => rfl
  | cons l lines ih =>
    rw [ofLines, List.map_cons, List.zipIdx_cons, List.filterMap_cons_none (hf l n)]
    exact ih (n + 1)

/-- What is read off calls and ends does not depend on the lines between them. -/
theorem filterMap_exchange {α : Type} {f : Piece × Nat → Option α} (hf : ∀ l i, f (line l, i) = none)
    (code rest : List Piece) {lines lines' : List Line} (h : lines.length = lines'.length) :
    (code ++ (ofLines lines ++ rest)).zipIdx.filterMap f =
      (code ++ (ofLines lines' ++ rest)).zipIdx.filterMap f := by
  simp only [List.zipIdx_append, List.filterMap_append, filterMap_ofLines hf, length_ofLines, h]

theorem calls_call (code : List Piece) (p ret : String) (l : Line) (name : String) :
    calls (code ++ [call p ret, line l]) name =
      calls code name ++ if p = name then [⟨code.length, ret⟩] else [] := by
  by_cases h : p = name <;> simp [calls, List.zipIdx_append, callAt, h]

theorem finish?_call (code : List Piece) (p ret : String) (l : Line) (name : String) :
    finish? (code ++ [call p ret, line l]) name = finish? code name := by
  rw [finish?, List.zipIdx_append, List.filterMap_append]
  exact congrArg List.getLast? (List.append_nil _)

theorem calls_finish (code : List Piece) (p : String) (l : Line) (name : String) :
    calls (code ++ [finish p, line l]) name = calls code name := by
  rw [calls, List.zipIdx_append, List.filterMap_append]
  exact List.append_nil _

theorem finish?_finish (code : List Piece) (p : String) (l : Line) (name : String) :
    finish? (code ++ [finish p, line l]) name =
      if p = name then some code.length else finish? code name := by
  rw [finish?, List.zipIdx_append, List.filterMap_append]
  by_cases h : p = name
  · simp only [List.zipIdx_cons, List.zipIdx_nil, List.filterMap_cons, finishAt, h, if_true,
      Nat.zero_add, List.filterMap_nil, List.getLast?_concat]
  · simp only [List.zipIdx_cons, List.zipIdx_nil, List.filterMap_cons, finishAt, h, if_false,
      List.filterMap_nil, List.append_nil, finish?]

end Piece

/-! ### The generator of an outline -/

/-- A procedure after the given code. -/
def Heading.procedure (h : Heading) (code : List Piece) : Procedure where
  name := h.name
  label := Gen.procedureLabel h.name
  selector := h.selector
  calls := Piece.calls code h.name
  finish := Piece.finish? code h.name
  pos := h.pos

namespace Outline

/-- The generator after the given code. -/
def generator (o : Outline) (code : List Piece) : Generator where
  code := .ofLines (code.map Piece.plain)
  memory := o.stock.memory
  labels := o.stock.labels
  scope := o.scope
  procedures := o.headings.map (·.procedure code)

/-- The outline at another stock. -/
def restock (o : Outline) (s : Stock) : Outline := { o with stock := s }

variable (o : Outline) (code rest : List Piece) (s : Stock)

@[simp] theorem scope_generator : (o.generator code).scope = o.scope := rfl

@[simp] theorem stock_generator : (o.generator code).stock = o.stock := rfl

@[simp] theorem scope_restock : (o.restock s).scope = o.scope := rfl

@[simp] theorem stock_restock : (o.restock s).stock = s := rfl

@[simp] theorem headings_restock : (o.restock s).headings = o.headings := rfl

@[simp] theorem restock_restock (s' : Stock) : (o.restock s).restock s' = o.restock s' := rfl

theorem generator_eq_holding :
    o.generator code = (o.generator code).holding (code.map Piece.plain) o.stock := rfl

/-- Lines in the place of as many lines leave all procedures as they are. -/
theorem holding_exchange {lines lines' : List Line} (h : lines.length = lines'.length) :
    (o.generator (code ++ (Piece.ofLines lines ++ rest))).holding
      (code.map Piece.plain ++ (lines' ++ rest.map Piece.plain)) s =
      (o.restock s).generator (code ++ (Piece.ofLines lines' ++ rest)) := by
  have hp : ∀ q : Heading, q.procedure (code ++ (Piece.ofLines lines ++ rest)) =
      q.procedure (code ++ (Piece.ofLines lines' ++ rest)) := by
    intro q
    simp only [Heading.procedure, Piece.calls, Piece.finish?,
      Piece.filterMap_exchange (Piece.callAt_line q.name) code rest h,
      Piece.filterMap_exchange (Piece.finishAt_line q.name) code rest h]
  simp [Generator.holding, generator, restock, hp]

/-- More lines leave all procedures as they are. -/
theorem holding_append (lines : List Line) :
    (o.generator code).holding (code.map Piece.plain ++ lines) s =
      (o.restock s).generator (code ++ Piece.ofLines lines) := by
  have hp : ∀ q : Heading, q.procedure code = q.procedure (code ++ Piece.ofLines lines) := by
    intro q
    simp only [Heading.procedure, Piece.calls, Piece.finish?, List.zipIdx_append,
      List.filterMap_append, Piece.filterMap_ofLines (Piece.callAt_line q.name),
      Piece.filterMap_ofLines (Piece.finishAt_line q.name), List.append_nil]
  simp [Generator.holding, generator, restock, hp]

@[simp] theorem grow_generator (lines : List Line) :
    (o.generator code).grow lines s = (o.restock s).generator (code ++ Piece.ofLines lines) := by
  rw [generator_eq_holding, Generator.grow_holding, ← holding_append]

/-- No two procedures have the same name. -/
def Distinct : Prop := (o.headings.map (·.name)).Nodup

variable {o code}

theorem Distinct.eq_of_name_eq (h : o.Distinct) {p q : Heading} (hp : p ∈ o.headings)
    (hq : q ∈ o.headings) (hn : p.name = q.name) : p = q :=
  List.inj_on_of_nodup_map h hp hq hn

/-- New code for one procedure. -/
theorem Distinct.map_procedure (h : o.Distinct) {q : Heading} (hq : q ∈ o.headings)
    {p : Procedure} (code' : List Piece) (hp : p = q.procedure code')
    (hr : ∀ r : Heading, r.name ≠ q.name → r.procedure code = r.procedure code') :
    (o.headings.map fun r => if r.name = q.name then p else r.procedure code) =
      o.headings.map (·.procedure code') := by
  refine List.map_congr_left fun r hmem => ?_
  split
  case isTrue hn => rw [h.eq_of_name_eq hmem hq hn, hp]
  case isFalse hn => exact hr r hn

end Outline

namespace Gen

variable {o : Outline} {code : List Piece} {g' : Generator}

/-! ### Calls -/

/-- The procedure of a name is that of a heading. -/
theorem of_procedure {name : String} {found : Option Procedure}
    (h : procedure? name (o.generator code) = .ok found g') :
    g' = o.generator code ∧ ((found = none ∧ ∀ q ∈ o.headings, q.name ≠ name)
      ∨ ∃ q ∈ o.headings, q.name = name ∧ found = some (q.procedure code)) := by
  obtain ⟨_, _, hget, h⟩ := of_bind h
  cases hget
  obtain ⟨rfl, rfl⟩ := of_pure h
  refine ⟨rfl, ?_⟩
  simp only [Outline.generator, List.find?_map]
  cases hf : o.headings.find? ((fun p : Procedure => p.name == name) ∘ (·.procedure code)) with
  | none => exact .inl ⟨rfl, fun q hq => by
      simpa [Heading.procedure] using List.find?_eq_none.1 hf q hq⟩
  | some q => exact .inr ⟨q, List.mem_of_find?_eq_some hf, by simpa [Heading.procedure] using List.find?_some hf, rfl⟩

/-- Recording a known procedure changes the procedure of its heading only. -/
theorem of_putProcedure (o : Outline) (code : List Piece) {p : Procedure} (q : Heading)
    {g : Generator} {u : Unit}
    (hg : g.procedures = o.headings.map (·.procedure code)) (hq : q ∈ o.headings)
    (hn : p.name = q.name) (h : putProcedure p g = .ok u g') :
    g' = { g with procedures :=
      o.headings.map fun r => if r.name = q.name then p else r.procedure code } := by
  cases h
  have hany : g.procedures.any (·.name == p.name) = true := by
    rw [hg, List.any_map, List.any_eq_true]
    exact ⟨q, hq, by simp [Heading.procedure, hn]⟩
  beta_reduce
  rw [if_pos hany, hg, List.map_map]
  congr 2
  funext r
  simp [Heading.procedure, hn]

theorem of_callNamed {p : Token} {u : Unit} (hd : o.Distinct)
    (h : callNamed p (o.generator code) = .ok u g') :
    o.scope.hasProcedure p.text = true
      ∧ g' = (o.restock (o.stock.skip 1)).generator
        (code ++ [.call p.text (Code.labelName o.stock.labels), .mark o.stock.labels]) := by
  obtain ⟨found, _, ⟨rfl, hfound⟩, h⟩ := after of_procedure h
  obtain ⟨rfl, -⟩ | ⟨q, hq, hname, rfl⟩ := hfound
  · exact (not_fail h).elim
  obtain ⟨_, _, hget, h⟩ := of_bind h
  cases hget
  split at h
  case isFalse => exact (not_fail h).elim
  case isTrue hvisible =>
    refine ⟨hvisible, ?_⟩
    obtain ⟨entry, _, he, h⟩ := of_bind h
    cases he
    obtain ⟨_, _, ⟨rfl, rfl⟩, h⟩ := after of_newLabel h
    obtain ⟨_, _, rfl, h⟩ := after of_place h
    obtain rfl := of_putProcedure o code q rfl hq rfl h
    rw [hd.map_procedure hq (code ++ [.call p.text (Code.labelName o.stock.labels),
      .mark o.stock.labels])]
    · simp [Outline.generator, Outline.restock, Generator.grow, Generator.stock, Stock.skip,
        Piece.plain, Piece.mark, Code.label, Heading.procedure, hname]
    · simp only [Heading.procedure, Piece.mark, Piece.calls_call, Piece.finish?_call, hname, if_true]
      simp [Outline.generator]
      rfl
    · intro r hr
      simp only [Heading.procedure, Piece.mark, Piece.calls_call, Piece.finish?_call,
        if_neg (hname ▸ Ne.symm hr), List.append_nil]

end Gen

/-! ### Conditions in statements -/

namespace Gen

variable {o : Outline} {code rest : List Piece} {test : List TestLine} {br : Branch}
  {g' : Generator} {u : Unit}

theorem outline_newLabel {l : String} (h : newLabel (o.generator code) = .ok l g') :
    l = Code.labelName o.stock.labels ∧ g' = (o.restock (o.stock.skip 1)).generator code := by
  obtain ⟨rfl, rfl⟩ := of_newLabel h
  exact ⟨rfl, by simp⟩

theorem outline_emit {lines : List Line} (h : emit lines (o.generator code) = .ok u g') :
    g' = o.generator (code ++ Piece.ofLines lines) := by
  obtain rfl := of_emit h
  exact o.grow_generator code o.stock lines

theorem outline_place {l : String} (h : place l (o.generator code) = .ok u g') :
    g' = o.generator (code ++ [.line (.label l)]) := outline_emit h

theorem outline_condition {c : Cond} (h : c.generate (o.generator code) = .ok br g') :
    ∃ test s', Cond.Coded o.scope none o.stock c test s' ∧ br = .ofTest code.length test
      ∧ g' = (o.restock s').generator (code ++ Piece.ofLines (Code.closeTest "" "" test)) := by
  rw [Outline.generator_eq_holding] at h
  obtain ⟨test, s', hc, rfl, rfl⟩ := Cond.coded_of_generate h
  exact ⟨test, s', hc, by rw [List.length_map], o.holding_append code s' _⟩

theorem outline_relation {v w : Var} {rel : Relation}
    (h : relation v w rel (o.generator code) = .ok br g') :
    v.width = w.width ∧ br = .ofTest code.length (Code.relationTest rel v w o.stock.labels)
      ∧ g' = (o.restock (o.stock.skip (Code.relationLabels rel v))).generator (code
        ++ Piece.ofLines (Code.closeTest "" "" (Code.relationTest rel v w o.stock.labels))) := by
  rw [Outline.generator_eq_holding] at h
  obtain ⟨hw, rfl, rfl⟩ := of_relation h
  exact ⟨hw, by rw [List.length_map], o.holding_append code _ _⟩

theorem resolve_outline_true (code rest : List Piece) (no label : String)
    (onFalse : List EntryId) :
    resolve ⟨Code.exitIds true code.length test, onFalse⟩ true label
      (o.generator (code ++ (Piece.ofLines (Code.closeTest "" no test) ++ rest))) =
      .ok ⟨[], onFalse⟩
        (o.generator (code ++ (Piece.ofLines (Code.closeTest label no test) ++ rest))) := by
  rw [Outline.generator_eq_holding, List.map_append, List.map_append, Piece.map_plain_ofLines,
    ← List.length_map Piece.plain, resolve_true, o.holding_exchange code rest _ (by simp)]
  rfl

theorem resolve_outline_false (code rest : List Piece) (yes label : String)
    (onTrue : List EntryId) :
    resolve ⟨onTrue, Code.exitIds false code.length test⟩ false label
      (o.generator (code ++ (Piece.ofLines (Code.closeTest yes "" test) ++ rest))) =
      .ok ⟨onTrue, []⟩
        (o.generator (code ++ (Piece.ofLines (Code.closeTest yes label test) ++ rest))) := by
  rw [Outline.generator_eq_holding, List.map_append, List.map_append, Piece.map_plain_ofLines,
    ← List.length_map Piece.plain, resolve_false, o.holding_exchange code rest _ (by simp)]
  rfl

/-- The exits of a test at the end of the code. -/
theorem resolveBoth_outline (code : List Piece) (yes no : String) :
    resolveBoth (.ofTest code.length test) yes no
      (o.generator (code ++ Piece.ofLines (Code.closeTest "" "" test))) =
      .ok () (o.generator (code ++ Piece.ofLines (Code.closeTest yes no test))) := by
  have htrue : resolve (.ofTest code.length test) true yes
      (o.generator (code ++ (Piece.ofLines (Code.closeTest "" "" test) ++ []))) = _ :=
    resolve_outline_true code [] "" yes (Code.exitIds false code.length test)
  have hfalse : resolve ⟨[], Code.exitIds false code.length test⟩ false no
      (o.generator (code ++ (Piece.ofLines (Code.closeTest yes "" test) ++ []))) = _ :=
    resolve_outline_false code [] yes no []
  rw [List.append_nil] at htrue hfalse
  simp only [resolveBoth, bind, EStateM.bind, htrue, List.append_nil, hfalse]
  rfl

theorem outline_resolve_true {no label : String} {onFalse : List EntryId}
    (h : resolve ⟨Code.exitIds true code.length test, onFalse⟩ true label
      (o.generator (code ++ (Piece.ofLines (Code.closeTest "" no test) ++ rest))) = .ok br g') :
    br = ⟨[], onFalse⟩
      ∧ g' = o.generator (code ++ (Piece.ofLines (Code.closeTest label no test) ++ rest)) := by
  rw [resolve_outline_true] at h
  cases h
  exact ⟨rfl, rfl⟩

theorem outline_resolve_false {yes label : String} {onTrue : List EntryId}
    (h : resolve ⟨onTrue, Code.exitIds false code.length test⟩ false label
      (o.generator (code ++ (Piece.ofLines (Code.closeTest yes "" test) ++ rest))) = .ok br g') :
    br = ⟨onTrue, []⟩
      ∧ g' = o.generator (code ++ (Piece.ofLines (Code.closeTest yes label test) ++ rest)) := by
  rw [resolve_outline_false] at h
  cases h
  exact ⟨rfl, rfl⟩

theorem outline_resolveBoth {yes no : String}
    (h : resolveBoth (.ofTest code.length test) yes no
      (o.generator (code ++ Piece.ofLines (Code.closeTest "" "" test))) = .ok u g') :
    g' = o.generator (code ++ Piece.ofLines (Code.closeTest yes no test)) := by
  rw [resolveBoth_outline] at h
  cases h
  rfl

/-! ### Parts of statements -/

theorem of_fill {arr : ArrayVar} {cells : List Nat} {pos : Pos} {why : Complaint} {g : Generator}
    (h : fill arr cells pos why g = .ok u g') :
    cells.length ≤ arr.size ∧ g' = g.grow (Code.fillArray arr cells) g.stock := by
  unfold fill ArrayVar.checkedSize at h
  by_cases hs : arr.size < 0x10000
  · simp only [hs, if_true] at h
    split at h
    case isTrue => exact (not_fail h).elim
    case isFalse hlt => exact ⟨Nat.le_of_not_lt hlt, of_emit h⟩
  · simp only [hs, if_false] at h
    cases h

theorem of_fillText {x text : Token} {g : Generator} (h : fillText x text g = .ok u g') :
    ∃ arr cs cells, g.scope.find? x.text = some (.array arr) ∧ unquote? text.text = some cs
      ∧ textCells cs = .ok cells ∧ cells.length ≤ arr.size
      ∧ g' = g.grow (Code.fillArray arr cells) g.stock := by
  obtain ⟨arr, _, ⟨hx, rfl⟩, h⟩ := after of_array h
  cases hu : unquote? text.text with
  | none => simp only [hu] at h; exact (not_fail h).elim
  | some cs =>
    simp only [hu] at h
    cases hc : textCells cs with
    | error c => simp only [hc] at h; exact (not_fail h).elim
    | ok cells =>
      simp only [hc] at h
      obtain ⟨hl, rfl⟩ := of_fill h
      exact ⟨arr, cs, cells, hx, rfl, hc, hl, rfl⟩

theorem of_copyArray {src dst : ArrayVar} {g : Generator} (h : copyArray src dst g = .ok u g') :
    src.size < 0x10000 ∧ g' = g.grow
      (Code.comment (dst.name ++ " := " ++ src.name) :: Code.copyArray src dst) g.stock := by
  obtain ⟨_, _, rfl, h⟩ := after of_emit h
  unfold ArrayVar.checkedSize at h
  by_cases hs : src.size < 0x10000
  · simp only [hs, if_true] at h
    obtain rfl := of_emit h
    exact ⟨hs, by simp⟩
  · simp only [hs, if_false] at h
    cases h

theorem of_assignArray {x y : Token} {g : Generator} (h : assignArray x y g = .ok u g') :
    ∃ dst src, g.scope.find? x.text = some (.array dst) ∧ g.scope.find? y.text = some (.array src)
      ∧ src.width = dst.width ∧ src.len ≤ dst.len ∧ src.size < 0x10000
      ∧ g' = g.grow
        (Code.comment (dst.name ++ " := " ++ src.name) :: Code.copyArray src dst) g.stock := by
  obtain ⟨dst, _, ⟨hx, rfl⟩, h⟩ := after of_array h
  obtain ⟨src, _, ⟨hy, rfl⟩, h⟩ := after of_array h
  by_cases hw : src.width = dst.width
  · by_cases hl : dst.len < src.len
    · simp only [hw, hl, ne_eq, not_true_eq_false, if_false, if_true] at h
      obtain ⟨_, _, hc, -⟩ := of_bind h
      exact (not_fail hc).elim
    · simp only [hw, hl, ne_eq, not_true_eq_false, if_false] at h
      obtain ⟨hs, rfl⟩ := of_copyArray h
      exact ⟨dst, src, hx, hy, hw, Nat.le_of_not_lt hl, hs, rfl⟩
  · simp only [hw, ne_eq, not_false_eq_true, if_true] at h
    obtain ⟨_, _, hc, -⟩ := of_bind h
    exact (not_fail hc).elim

theorem of_writeElement {arr : ArrayVar} {i src : Var} {g : Generator}
    (h : writeElement arr i src g = .ok u g') :
    ∃ offset s', g.stock.Takes .byte offset s'
      ∧ g' = g.grow (Code.writeElement arr i src offset) (s'.release offset) := by
  unfold writeElement at h
  by_cases hw : arr.width = src.width
  · simp only [hw, ne_eq, not_true_eq_false, if_false] at h
    obtain ⟨_, _, ⟨s', ht, rfl⟩, h⟩ := after of_temp h
    obtain ⟨_, _, rfl, h⟩ := after of_emit h
    obtain rfl := of_recycle h
    exact ⟨_, _, ht, by simp⟩
  · simp only [hw, ne_eq, not_false_eq_true, if_true] at h
    obtain ⟨_, _, hc, -⟩ := of_bind h
    cases hc

theorem of_inlineLine {text : Token} {g : Generator} (h : inlineLine text g = .ok u g') :
    ∃ l, g.scope.inlineLine text = .ok l ∧ g' = g.grow [l] g.stock := by
  obtain ⟨_, _, hget, h⟩ := of_bind h
  cases hget
  cases hl : g.scope.inlineLine text with
  | error why =>
    rw [Scope.inlineLine] at hl
    simp only [hl] at h
    exact (not_fail h).elim
  | ok l =>
    rw [Scope.inlineLine] at hl
    simp only [hl] at h
    exact ⟨l, rfl, of_emit h⟩

/-- Lines of inline assembly are passed on one by one. -/
theorem of_inlineLines {texts : List Token} {g : Generator}
    (h : texts.forM inlineLine g = .ok u g') :
    ∃ lines, List.Forall₂ (fun text l => g.scope.inlineLine text = .ok l) texts lines
      ∧ g' = g.grow lines g.stock := by
  induction texts generalizing g with
  | nil =>
    obtain ⟨-, rfl⟩ := of_pure h
    exact ⟨[], .nil, by simp⟩
  | cons text texts ih =>
    obtain ⟨_, _, ⟨l, hl, rfl⟩, h⟩ := after of_inlineLine h
    obtain ⟨lines, hlines, rfl⟩ := ih h
    exact ⟨l :: lines, .cons hl hlines, by simp⟩

/-! ### Statements with bodies -/

theorem outline_openChoice {c : Cond} {gate : Gate} {k : Choice}
    (h : openChoice c gate (o.generator code) = .ok k g') :
    gate = .passed ∧ ∃ test s', Cond.Coded o.scope none (o.stock.skip 3) c test s'
      ∧ k = ⟨⟨[], Code.exitIds false code.length test⟩, Code.labelName (o.stock.labels + 1),
        Code.labelName (o.stock.labels + 2)⟩
      ∧ g' = (o.restock s').generator (code ++ (Piece.ofLines
        (Code.closeTest (Code.labelName o.stock.labels) "" test) ++ [.mark o.stock.labels])) := by
  obtain ⟨_, _, ⟨rfl, rfl⟩, h⟩ := after outline_newLabel h
  obtain ⟨_, _, ⟨rfl, rfl⟩, h⟩ := after outline_newLabel h
  obtain ⟨_, _, ⟨rfl, rfl⟩, h⟩ := after outline_newLabel h
  obtain ⟨_, _, ⟨test, s', hc, rfl, rfl⟩, h⟩ := after outline_condition h
  rw [← List.append_nil (Piece.ofLines _)] at h
  obtain ⟨_, _, ⟨rfl, rfl⟩, h⟩ := after outline_resolve_true h
  obtain ⟨_, _, ⟨hgate, rfl⟩, h⟩ := after of_pass h
  obtain ⟨_, _, rfl, h⟩ := after outline_place h
  obtain ⟨rfl, rfl⟩ := of_pure h
  exact ⟨hgate, test, s', hc, rfl, by simp [Piece.mark, Code.label]⟩

theorem outline_closeChoice {yes other exit : String}
    (h : closeChoice ⟨⟨[], Code.exitIds false code.length test⟩, other, exit⟩
      (o.generator (code ++ (Piece.ofLines (Code.closeTest yes "" test) ++ rest))) = .ok u g') :
    g' = o.generator (code ++ (Piece.ofLines (Code.closeTest yes exit test)
      ++ (rest ++ [.line (.label exit)]))) := by
  obtain ⟨_, _, ⟨rfl, rfl⟩, h⟩ := after outline_resolve_false h
  obtain rfl := outline_place h
  simp

theorem outline_otherwise {yes other exit : String}
    (h : otherwise ⟨⟨[], Code.exitIds false code.length test⟩, other, exit⟩
      (o.generator (code ++ (Piece.ofLines (Code.closeTest yes "" test) ++ rest))) = .ok u g') :
    g' = o.generator (code ++ (Piece.ofLines (Code.closeTest yes other test)
      ++ (rest ++ [.line (Code.jump .jmp exit), .line (.label other)]))) := by
  obtain ⟨_, _, ⟨rfl, rfl⟩, h⟩ := after outline_resolve_false h
  obtain ⟨_, _, rfl, h⟩ := after outline_emit h
  obtain rfl := outline_place h
  simp [Piece.ofLines]

theorem outline_openWhile {c : Cond} {gate : Gate} {k : Loop}
    (h : openWhile c gate (o.generator code) = .ok k g') :
    gate = .passed ∧ ∃ test s', Cond.Coded o.scope none (o.stock.skip 3) c test s'
      ∧ k = ⟨Code.labelName o.stock.labels, Code.labelName (o.stock.labels + 2)⟩
      ∧ g' = (o.restock s').generator (code ++ (.mark o.stock.labels ::
        (Piece.test (o.stock.labels + 1) (o.stock.labels + 2) test
          ++ [.mark (o.stock.labels + 1)]))) := by
  obtain ⟨_, _, ⟨rfl, rfl⟩, h⟩ := after outline_newLabel h
  obtain ⟨_, _, ⟨rfl, rfl⟩, h⟩ := after outline_newLabel h
  obtain ⟨_, _, ⟨rfl, rfl⟩, h⟩ := after outline_newLabel h
  obtain ⟨_, _, rfl, h⟩ := after outline_place h
  obtain ⟨_, _, ⟨test, s', hc, rfl, rfl⟩, h⟩ := after outline_condition h
  obtain ⟨_, _, rfl, h⟩ := after outline_resolveBoth h
  obtain ⟨_, _, ⟨hgate, rfl⟩, h⟩ := after of_pass h
  obtain ⟨_, _, rfl, h⟩ := after outline_place h
  obtain ⟨rfl, rfl⟩ := of_pure h
  exact ⟨hgate, test, s', hc, rfl, by simp [Piece.mark, Piece.test, Code.label]⟩

theorem outline_closeWhile {k : Loop} (h : closeWhile k (o.generator code) = .ok u g') :
    g' = o.generator (code ++ [.line (Code.jump .jmp k.start), .line (.label k.exit)]) := by
  obtain ⟨_, _, rfl, h⟩ := after outline_emit h
  obtain rfl := outline_place h
  simp [Piece.ofLines]

theorem outline_openRepeat {k : Loop} (h : openRepeat (o.generator code) = .ok k g') :
    k = ⟨Code.labelName o.stock.labels, Code.labelName (o.stock.labels + 1)⟩
      ∧ g' = (o.restock (o.stock.skip 2)).generator (code ++ [.mark o.stock.labels]) := by
  obtain ⟨_, _, ⟨rfl, rfl⟩, h⟩ := after outline_newLabel h
  obtain ⟨_, _, ⟨rfl, rfl⟩, h⟩ := after outline_newLabel h
  obtain ⟨_, _, rfl, h⟩ := after outline_place h
  obtain ⟨rfl, rfl⟩ := of_pure h
  exact ⟨rfl, by simp [Piece.mark, Code.label]⟩

theorem outline_closeRepeat {c : Cond} {k : Loop}
    (h : closeRepeat k c (o.generator code) = .ok u g') :
    ∃ test s', Cond.Coded o.scope none o.stock c test s'
      ∧ g' = (o.restock s').generator (code ++ (Piece.ofLines (Code.closeTest k.exit k.start test)
        ++ [.line (.label k.exit)])) := by
  obtain ⟨_, _, ⟨test, s', hc, rfl, rfl⟩, h⟩ := after outline_condition h
  obtain ⟨_, _, rfl, h⟩ := after outline_resolveBoth h
  obtain rfl := outline_place h
  exact ⟨test, s', hc, by simp⟩

/-- The counter is set and the limit is in its temporary; then comes the test. -/
theorem outline_openFor {x : Token} {down : Bool} {first last : Expr} {gate : Gate} {k : Counter}
    (h : openFor x down first last gate (o.generator code) = .ok k g') :
    gate = .passed ∧ ∃ v start bound limit lines₁ lines₂ s₁ s₂ s₃,
      o.scope.find? x.text = some (.scalar v) ∧ Expr.Coded o.scope o.stock first lines₁ start s₁
      ∧ Expr.Coded o.scope (s₁.release start) last lines₂ bound s₂
      ∧ s₂.Takes v.width limit s₃ ∧ limit.width = v.width
      ∧ k = ⟨v, limit, Code.labelName s₃.labels, Code.labelName (s₃.labels + 2),
        Code.labelName (s₃.labels + 3)⟩
      ∧ g' = (o.restock (((s₃.release bound).skip 4).skip
          (Code.relationLabels (.past down) v))).generator
        (code ++ (Piece.ofLines (lines₁ ++ (Code.resize start v ++ (freeLines start ++ (lines₂
          ++ (Code.resize bound limit ++ freeLines bound)))))
        ++ (.mark s₃.labels :: (Piece.test (s₃.labels + 3) (s₃.labels + 1)
          (Code.relationTest (.past down) v limit (s₃.labels + 4)) ++ [.mark (s₃.labels + 1)])))) := by
  obtain ⟨v, _, ⟨hx, rfl⟩, h⟩ := after of_scalar h
  obtain ⟨start, _, ⟨lines₁, s₁, hf, rfl⟩, h⟩ := after Expr.coded_of_generate h
  obtain ⟨_, _, rfl, h⟩ := after of_store h
  obtain ⟨_, _, rfl, h⟩ := after of_free h
  obtain ⟨bound, _, ⟨lines₂, s₂, hl, rfl⟩, h⟩ := after Expr.coded_of_generate h
  obtain ⟨limit, _, ⟨s₃, ht, rfl⟩, h⟩ := after of_temp h
  obtain ⟨_, _, rfl, h⟩ := after of_store h
  obtain ⟨_, _, rfl, h⟩ := after of_free h
  obtain ⟨_, _, ⟨hgate, rfl⟩, h⟩ := after of_pass h
  simp only [Outline.grow_generator] at h
  obtain ⟨_, _, ⟨rfl, rfl⟩, h⟩ := after outline_newLabel h
  obtain ⟨_, _, ⟨rfl, rfl⟩, h⟩ := after outline_newLabel h
  obtain ⟨_, _, ⟨rfl, rfl⟩, h⟩ := after outline_newLabel h
  obtain ⟨_, _, ⟨rfl, rfl⟩, h⟩ := after outline_newLabel h
  obtain ⟨_, _, rfl, h⟩ := after outline_place h
  simp only [Outline.restock_restock, Outline.stock_restock, Stock.skip_skip, Stock.labels_skip,
    Nat.reduceAdd] at h
  obtain ⟨_, _, ⟨hw, rfl, rfl⟩, h⟩ := after outline_relation h
  obtain ⟨_, _, rfl, h⟩ := after outline_resolveBoth h
  obtain ⟨_, _, rfl, h⟩ := after outline_place h
  obtain ⟨rfl, rfl⟩ := of_pure h
  refine ⟨hgate, v, start, bound, limit, lines₁, lines₂, s₁, s₂, s₃, hx, hf, hl, ht, hw.symm, ?_, ?_⟩
  · simp
  · simp [Piece.mark, Piece.test, Code.label, Relation.past]

theorem outline_closeFor {k : Counter} {down : Bool}
    (h : closeFor k down (o.generator code) = .ok u g') :
    g' = (o.restock ((o.stock.skip (Code.relationLabels .eq k.var)).release k.limit)).generator
      (code ++ (Piece.ofLines
        (Code.closeTest k.exit k.step (Code.relationTest .eq k.var k.limit o.stock.labels))
      ++ (.line (.label k.step) :: (Piece.ofLines (Code.advanceCounter down k.var)
        ++ (.line (Code.jump .jmp k.test) :: .line (.label k.exit) ::
          Piece.ofLines (freeLines k.limit)))))) := by
  obtain ⟨_, _, ⟨-, rfl, rfl⟩, h⟩ := after outline_relation h
  obtain ⟨_, _, rfl, h⟩ := after outline_resolveBoth h
  obtain ⟨_, _, rfl, h⟩ := after outline_place h
  obtain ⟨_, _, rfl, h⟩ := after outline_emit h
  obtain ⟨_, _, rfl, h⟩ := after outline_emit h
  obtain ⟨_, _, rfl, h⟩ := after outline_place h
  obtain rfl := of_free h
  simp [Piece.ofLines, Code.advanceCounter]

end Gen

namespace Stmt

variable {o : Outline} {code : List Piece} {g' : Generator} {u : Unit}

/-- A statement generates its pieces. -/
def Generates (st : Stmt) : Prop :=
  ∀ {o : Outline}, o.Distinct → ∀ {s : Stock} {code : List Piece} {u : Unit} {g' : Generator},
    st.generate ((o.restock s).generator code) = .ok u g' →
      ∃ code' s', Stmt.Coded o.scope s st code' s'
        ∧ g' = (o.restock s').generator (code ++ code')

theorem generates_assign {x : Token} {value : Expr} : (assign x value).Generates := by
  intro o hd s code u g' h
  obtain ⟨dst, _, ⟨hx, rfl⟩, h⟩ := Gen.after Gen.of_scalar h
  obtain ⟨v, _, ⟨lines, s', hv, rfl⟩, h⟩ := Gen.after Expr.coded_of_generate h
  obtain ⟨_, _, rfl, h⟩ := Gen.after Gen.of_store h
  obtain rfl := Gen.of_free h
  exact ⟨_, _, .assign hx hv, by simp⟩

theorem generates_setElement {x : Token} {index value : Expr} :
    (setElement x index value).Generates := by
  intro o hd s code u g' h
  obtain ⟨arr, _, ⟨hx, rfl⟩, h⟩ := Gen.after Gen.of_array h
  obtain ⟨i, _, ⟨lines₁, s₁, hi, rfl⟩, h⟩ := Gen.after Expr.coded_of_generate h
  obtain ⟨v, _, ⟨lines₂, s₂, hv, rfl⟩, h⟩ := Gen.after Expr.coded_of_generate h
  obtain ⟨v', _, ⟨lines₃, s₃, hc, rfl⟩, h⟩ := Gen.after Gen.of_convert h
  obtain ⟨_, _, ⟨offset, s₄, ho, rfl⟩, h⟩ := Gen.after Gen.of_writeElement h
  obtain ⟨_, _, rfl, h⟩ := Gen.after Gen.of_free h
  obtain rfl := Gen.of_free h
  exact ⟨_, _, .setElement hx hi hv hc ho, by simp⟩

theorem generates_ifThen {c : Cond} {gate : Gate} {yes : Stmt} (ih : yes.Generates) :
    (ifThen c gate yes).Generates := by
  intro o hd s code u g' h
  obtain ⟨_, _, ⟨rfl, test, s₁, hc, rfl, rfl⟩, h⟩ := Gen.after Gen.outline_openChoice h
  obtain ⟨_, _, ⟨code', s₂, hy, rfl⟩, h⟩ := Gen.after (ih hd) h
  rw [List.append_assoc, List.append_assoc] at h
  obtain rfl := Gen.outline_closeChoice h
  exact ⟨_, _, .ifThen hc hy, by simp [Piece.ifThen, Piece.test, Piece.mark, Code.label]⟩

theorem generates_ifElse {c : Cond} {gate : Gate} {yes no : Stmt} (ihy : yes.Generates)
    (ihn : no.Generates) : (ifElse c gate yes no).Generates := by
  intro o hd s code u g' h
  obtain ⟨_, _, ⟨rfl, test, s₁, hc, rfl, rfl⟩, h⟩ := Gen.after Gen.outline_openChoice h
  obtain ⟨_, _, ⟨code₁, s₂, hy, rfl⟩, h⟩ := Gen.after (ihy hd) h
  rw [List.append_assoc, List.append_assoc] at h
  obtain ⟨_, _, rfl, h⟩ := Gen.after Gen.outline_otherwise h
  obtain ⟨_, _, ⟨code₂, s₃, hn, rfl⟩, h⟩ := Gen.after (ihn hd) h
  obtain rfl := Gen.outline_place h
  exact ⟨_, _, .ifElse hc hy hn, by simp [Piece.ifElse, Piece.test, Piece.mark, Piece.goto,
    Code.label]⟩

theorem generates_whileDo {c : Cond} {gate : Gate} {body : Stmt} (ih : body.Generates) :
    (whileDo c gate body).Generates := by
  intro o hd s code u g' h
  obtain ⟨_, _, ⟨rfl, test, s₁, hc, rfl, rfl⟩, h⟩ := Gen.after Gen.outline_openWhile h
  obtain ⟨_, _, ⟨code', s₂, hb, rfl⟩, h⟩ := Gen.after (ih hd) h
  obtain rfl := Gen.outline_closeWhile h
  exact ⟨_, _, .whileDo hc hb, by simp [Piece.whileDo, Piece.mark, Piece.goto, Code.label]⟩

theorem generates_repeatUntil {body : Stmt} {c : Cond} (ih : body.Generates) :
    (repeatUntil body c).Generates := by
  intro o hd s code u g' h
  obtain ⟨_, _, ⟨rfl, rfl⟩, h⟩ := Gen.after Gen.outline_openRepeat h
  obtain ⟨_, _, ⟨code', s₁, hb, rfl⟩, h⟩ := Gen.after (ih hd) h
  obtain ⟨test, s₂, hc, rfl⟩ := Gen.outline_closeRepeat h
  exact ⟨_, _, .repeatUntil hb hc, by simp [Piece.repeatUntil, Piece.test, Piece.mark, Code.label]⟩

theorem generates_forDo {x : Token} {down : Bool} {first last : Expr} {gate : Gate} {body : Stmt}
    (ih : body.Generates) : (forDo x down first last gate body).Generates := by
  intro o hd s code u g' h
  obtain ⟨_, _, ⟨rfl, v, start, bound, limit, lines₁, lines₂, s₁, s₂, s₃, hx, hf, hl, ht, hw, rfl,
    rfl⟩, h⟩ := Gen.after Gen.outline_openFor h
  obtain ⟨_, _, ⟨code', s₄, hb, rfl⟩, h⟩ := Gen.after (ih hd) h
  obtain rfl := Gen.outline_closeFor h
  exact ⟨_, _, .forDo hx hf hl ht hw hb, by
    simp [Piece.forLoop, Piece.test, Piece.mark, Piece.goto, Code.label]⟩

/-- A statement generates its pieces. -/
theorem generates (st : Stmt) : st.Generates := by
  induction st with
  | fault why => exact fun _ _ _ _ _ h => (Gen.not_fail h).elim
  | asm lines close =>
    intro o hd s code u g' h
    obtain ⟨_, _, ⟨code', hl, rfl⟩, h⟩ := Gen.after Gen.of_inlineLines h
    obtain ⟨rfl, rfl⟩ := Gen.of_pass h
    exact ⟨_, _, .asm hl, by simp⟩
  | skip =>
    intro o hd s code u g' h
    obtain ⟨-, rfl⟩ := Gen.of_pure h
    exact ⟨_, _, .skip, by simp⟩
  | seq first rest ihf ihr =>
    intro o hd s code u g' h
    obtain ⟨_, _, ⟨code₁, s₁, hf, rfl⟩, h⟩ := Gen.after (ihf hd) h
    obtain ⟨code₂, s₂, hr, rfl⟩ := ihr hd h
    exact ⟨_, _, .seq hf hr, by simp⟩
  | nop =>
    intro o hd s code u g' h
    obtain rfl := Gen.outline_emit h
    exact ⟨_, _, .nop, rfl⟩
  | block body close ih =>
    intro o hd s code u g' h
    obtain ⟨_, _, ⟨code', s', hb, rfl⟩, h⟩ := Gen.after (ih hd) h
    obtain ⟨rfl, rfl⟩ := Gen.of_pass h
    exact ⟨_, _, .block hb, rfl⟩
  | assign x value => exact generates_assign
  | setElement x index value => exact generates_setElement
  | fillList x values =>
    intro o hd s code u g' h
    obtain ⟨arr, _, ⟨hx, rfl⟩, h⟩ := Gen.after Gen.of_array h
    obtain ⟨hl, rfl⟩ := Gen.of_fill h
    exact ⟨_, _, .fillList hx hl, by simp⟩
  | fillText x text =>
    intro o hd s code u g' h
    obtain ⟨arr, cs, cells, hx, hu, hc, hl, rfl⟩ := Gen.of_fillText h
    exact ⟨_, _, .fillText hx hu hc hl, by simp⟩
  | copyArray x y =>
    intro o hd s code u g' h
    obtain ⟨dst, src, hx, hy, hw, hl, hs, rfl⟩ := Gen.of_assignArray h
    exact ⟨_, _, .copyArray hx hy hw hl hs, by simp⟩
  | call p =>
    intro o hd s code u g' h
    obtain ⟨hp, rfl⟩ := Gen.of_callNamed (o := o.restock s) hd h
    exact ⟨_, _, .call hp, rfl⟩
  | ifThen c gate yes ih => exact generates_ifThen ih
  | ifElse c gate yes no ihy ihn =>
    exact generates_ifElse ihy ihn
  | whileDo c gate body ih => exact generates_whileDo ih
  | repeatUntil body c ih => exact generates_repeatUntil ih
  | forDo x down first last gate body ih => exact generates_forDo ih
  | step op x =>
    intro o hd s code u g' h
    obtain ⟨v, _, ⟨hx, rfl⟩, h⟩ := Gen.after Gen.of_scalar h
    obtain rfl := Gen.outline_emit h
    exact ⟨_, _, .step hx, rfl⟩
  | output port value =>
    intro o hd s code u g' h
    obtain ⟨v, _, ⟨lines, s', hv, rfl⟩, h⟩ := Gen.after Expr.coded_of_generate h
    obtain ⟨_, _, rfl, h⟩ := Gen.after Gen.of_emit h
    obtain rfl := Gen.of_free h
    exact ⟨_, _, .output hv, by simp⟩
  | input x gate port =>
    intro o hd s code u g' h
    obtain ⟨v, _, ⟨hx, rfl⟩, h⟩ := Gen.after Gen.of_scalar h
    obtain ⟨_, _, ⟨rfl, rfl⟩, h⟩ := Gen.after Gen.of_pass h
    obtain rfl := Gen.outline_emit h
    exact ⟨_, _, .input hx, rfl⟩

end Stmt

end NibblePascal
