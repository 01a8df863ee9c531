import NibblePascal.Proofs.Fragments.Test
import NibblePascal.Proofs.Simulation.Expression

/-!
# The code of conditions

A test with its exits closed leads to one of two labels, according to the truth of its
condition.  `image.Branches ρ test yes no P m t` says so of a test and a truth value `t`; a
chain of alternatives has its first label fixed, since the jumps of its earlier parts go
there.
-/

namespace NibblePascal

open Code

namespace Image

variable {image : Image} {ρ : String → Nat} {test test' : List TestLine}
  {yes no next : String} {P : Nat → Prop} {m m' : Memory} {t u : Option Bool}

/-- The closed test leads to the label of its outcome and changes no cell outside `P`, or never
ends if there is no outcome. -/
def Branches (image : Image) (ρ : String → Nat) (test : List TestLine) (yes no : String)
    (P : Nat → Prop) (m : Memory) : Option Bool → Prop
  | some b => ∃ m', m'.Nibbles ∧ m.SameBut P m' ∧
      ∀ pc out inp, image.Holds ρ pc (closeTest yes no test) →
        image.Advances ⟨pc, m, out, inp⟩ ⟨ρ (if b then yes else no), m', out, inp⟩
  | none => image.Stalls ρ (closeTest yes no test) m

theorem Branches.of_turns {lines : List Line} (h : image.Turns ρ lines m m')
    (hsame : m.SameBut P m') (h' : image.Branches ρ test yes no P m' t) :
    image.Branches ρ (lines.map .line ++ test) yes no P m t := by
  cases t with
  | none =>
    unfold Branches
    rw [closeTest_append, closeTest_map_line]
    exact h.stalls h'
  | some b =>
    obtain ⟨m'', hn, hsame', hleads⟩ := h'
    refine ⟨m'', hn, hsame.trans hsame', fun pc out inp hold => ?_⟩
    rw [closeTest_append, closeTest_map_line, holds_append] at hold
    exact (h pc out inp hold.1).advances (hleads _ out inp hold.2)

/-- The run leaves a test before it comes to what follows. -/
theorem Branches.append_right (h : image.Branches ρ test yes no P m t) :
    image.Branches ρ (test ++ test') yes no P m t := by
  cases t with
  | none =>
    unfold Branches
    rw [closeTest_append]
    exact h.append_right
  | some b =>
    obtain ⟨m', hn, hsame, hleads⟩ := h
    refine ⟨m', hn, hsame, fun pc out inp hold => hleads pc out inp ?_⟩
    rw [closeTest_append, holds_append] at hold
    exact hold.1

/-- A run from one test to another: for the outcome `early` it leaves by the label by which the
second test leaves, and for the other outcome it goes on at `next`.  The second test matters only
then. -/
theorem Branches.continued {yes₁ no₁ : String} (early : Bool)
    (h : image.Branches ρ test yes₁ no₁ P m t) (hnext : (if early then no₁ else yes₁) = next)
    (hearly : (if early then yes₁ else no₁) = if early then yes else no)
    (h' : t = some !early → ∀ m', m'.Nibbles → m.SameBut P m' →
      image.Branches ρ test' yes no P m' u) :
    image.Branches ρ (Code.continued yes₁ no₁ next test ++ test') yes no P m
      (t.bind fun b => if b = early then some early else u) := by
  have hclose : closeTest yes no (Code.continued yes₁ no₁ next test ++ test') =
      closeTest yes₁ no₁ test ++ (Line.label next :: closeTest yes no test') := by
    simp [Code.continued]
  cases t with
  | none =>
    show image.Stalls ρ _ m
    rw [hclose]
    exact Stalls.append_right h
  | some b =>
    obtain ⟨m₁, hn, hsame, hleads⟩ := h
    rw [Option.bind_some]
    by_cases hb : b = early
    · subst hb
      rw [if_pos rfl]
      refine ⟨m₁, hn, hsame, fun pc out inp hold => ?_⟩
      rw [hclose, holds_append] at hold
      rw [← hearly]
      exact hleads pc out inp hold.1
    · rw [if_neg hb]
      have hgoes : (if b then yes₁ else no₁) = next := by
        cases b <;> cases early <;> simp_all
      have h₂ := h' (by cases b <;> cases early <;> simp_all) m₁ hn hsame
      have hlead {pc : Nat} (out inp : Vector Nat 16)
          (hold : image.Holds ρ pc (closeTest yes₁ no₁ test ++
            (Line.label next :: closeTest yes no test'))) :
          image.Advances ⟨pc, m, out, inp⟩ ⟨pc + codeSize (closeTest yes₁ no₁ test), m₁, out, inp⟩ ∧
            image.Holds ρ (pc + codeSize (closeTest yes₁ no₁ test)) (closeTest yes no test') := by
        obtain ⟨hold₁, hlabel, hold₂⟩ := (holds_append ..).1 hold
        have hlead := hleads pc out inp hold₁
        rw [hgoes, hlabel] at hlead
        exact ⟨hlead, hold₂⟩
      cases u with
      | none =>
        show image.Stalls ρ _ m
        rw [hclose]
        intro pc out inp hold k
        exact .of_leads (hlead out inp hold).1.leads (h₂ _ out inp (hlead out inp hold).2 k)
      | some c =>
        obtain ⟨m₂, hn₂, hsame₂, hleads₂⟩ := h₂
        refine ⟨m₂, hn₂, hsame.trans hsame₂, fun pc out inp hold => ?_⟩
        rw [hclose] at hold
        exact (hlead out inp hold).1.leads.advances (hleads₂ _ out inp (hlead out inp hold).2)

/-- The exits of a test lead on to another pair of labels. -/
theorem Branches.merged (h : image.Branches ρ test yes no P m t) (yes' no' : String) :
    image.Branches ρ (Code.merged yes no test) yes' no' P m t := by
  have hclose : closeTest yes' no' (Code.merged yes no test) =
      closeTest yes no test
        ++ [Line.label yes, jump .jmp yes', Line.label no, jump .jmp no'] := by
    simp [Code.merged]
  cases t with
  | none =>
    show image.Stalls ρ _ m
    rw [hclose]
    exact Stalls.append_right h
  | some b =>
    obtain ⟨m', hn, hsame, hleads⟩ := h
    refine ⟨m', hn, hsame, fun pc out inp hold => ?_⟩
    rw [hclose] at hold
    obtain ⟨hold₁, hyes, hjmp, hno, hjmp', -⟩ := (holds_append ..).1 hold
    refine (hleads pc out inp hold₁).leads.advances ?_
    cases b with
    | true =>
      rw [← hyes] at hjmp
      exact advances_jump hjmp
    | false =>
      rw [← hno] at hjmp'
      exact advances_jump hjmp'

theorem Branches.congr (h : image.Branches ρ test yes no P m t)
    (heq : closeTest yes no test = closeTest yes no test') :
    image.Branches ρ test' yes no P m t := by
  cases t <;> simpa only [Branches, heq] using h

end Image

/-! ### Conditions -/

/-- The truth of the first alternative, or else of the second. -/
def Cond.either (t u : Option Bool) : Option Bool := t.bind fun b => if b then some true else u

theorem Cond.either_assoc (t u v : Option Bool) :
    Cond.either (Cond.either t u) v = Cond.either t (Cond.either u v) := by
  rcases t with _ | _ | _ <;> rfl

theorem Cond.truth_or (D : Decls) (σ : Store) (lhs rhs : Cond) :
    (Cond.or lhs rhs).truth D σ = Cond.either (lhs.truth D σ) (rhs.truth D σ) := rfl

theorem Cond.truth_and (D : Decls) (σ : Store) (lhs rhs : Cond) :
    (Cond.and lhs rhs).truth D σ =
      (lhs.truth D σ).bind fun b => if b = false then some false else rhs.truth D σ := by
  rw [Cond.truth]
  rcases lhs.truth D σ with _ | _ | _ <;> rfl

namespace Cond.Coded

variable {image : Image} {ρ : String → Nat} {room : Nat → Prop} {sc : Scope} {chain : Option Chain}
  {s s' : Stock} {c : Cond} {test : List TestLine} {m : Memory} {out : Vector Nat 16}

/-- A single operand is tested. -/
theorem branches_of_yields {e : Expr} {lines : List Line} {v : Var} {s' : Stock}
    {tests : List TestLine} (h : Expr.Coded sc s e lines v s') (hr : sc.Ready room)
    (hw : Workspace room s []) (hm : m.Nibbles) {yes no : String} {f : Nat → Bool}
    (htest : ∀ p : Point, p.mem.Nibbles → image.Holds ρ p.pc (closeTest yes no tests) →
      image.Advances p { p with pc := ρ (if f (p.mem.get v) then yes else no) }) :
    image.Branches ρ (lines.map .line ++ (tests ++ (freeLines v).map .line)) yes no room m
      ((e.value sc.decls (sc.view m out)).map fun x => f x.num) := by
  have hyields := h.yields image ρ out hr hw hm
  cases hx : e.value sc.decls (sc.view m out) with
  | none =>
    rw [hx] at hyields
    show image.Stalls ρ _ m
    rw [closeTest_append, closeTest_map_line]
    exact Image.Stalls.append_right hyields
  | some x =>
    rw [hx] at hyields
    obtain ⟨m', hturns, hn, hsame, hget, -⟩ := hyields
    refine .of_turns hturns (hsame.mono fun _ => hw.room_of_spare) (.append_right ?_)
    refine ⟨m', hn, .refl _ m', fun pc out inp hold => ?_⟩
    have hlead := htest ⟨pc, m', out, inp⟩ hn hold
    rwa [hget] at hlead

/-- Two operands are compared. -/
theorem branches_of_compare {lhs rhs : Expr} {rel : Relation} {s₁ s₂ s₃ : Stock}
    {lines₁ lines₂ lines₃ : List Line} {a b a' b' : Var} (ha : Expr.Coded sc s lhs lines₁ a s₁)
    (hb : Expr.Coded sc s₁ rhs lines₂ b s₂) (hmatch : Matched s₂ a b lines₃ a' b' s₃)
    (hr : sc.Ready room) (hw : Workspace room s []) (hm : m.Nibbles) (yes no : String) :
    image.Branches ρ ((lines₁ ++ (lines₂ ++ lines₃)).map .line
      ++ (relationTest rel a' b' s₃.labels ++ (freeLines a' ++ freeLines b').map .line)) yes no room
      m ((Cond.compare lhs rel rhs).truth sc.decls (sc.view m out)) := by
  have hw₁ := ha.books hr.ledger hw
  have hw₂ := hb.books hr.ledger hw₁
  have hw₃ := hmatch.books hr.ledger hw₂
  have hyields := ha.yields image ρ out hr hw hm
  rw [Cond.truth]
  cases hx : lhs.value sc.decls (sc.view m out) with
  | none =>
    rw [hx] at hyields
    show image.Stalls ρ _ m
    rw [closeTest_append, closeTest_map_line, List.append_assoc]
    exact Image.Stalls.append_right hyields
  | some x =>
    rw [hx] at hyields
    obtain ⟨m₁, hturns₁, hm₁, hsame₁, hgetx, -⟩ := hyields
    have hroom₁ := hsame₁.mono fun _ => hw.room_of_spare
    have hyields₂ := hb.yields image ρ out hr hw₁ hm₁
    rw [hr.view_congr hroom₁] at hyields₂
    cases hy : rhs.value sc.decls (sc.view m out) with
    | none =>
      rw [hy] at hyields₂
      show image.Stalls ρ _ m
      rw [closeTest_append, closeTest_map_line, List.append_assoc, List.append_assoc]
      exact hturns₁.stalls (Image.Stalls.append_right hyields₂)
    | some y =>
      rw [hy] at hyields₂
      obtain ⟨m₂, hturns₂, hm₂, hsame₂, hgety, -⟩ := hyields₂
      obtain ⟨m₃, hturns₃, hm₃, hsame₃, hgeta, hgetb, hwa, hwb⟩ := hmatch.turns image ρ hw₂ hm₂
      have hsame : m.SameBut room m₃ :=
        (hroom₁.trans (hsame₂.mono fun _ => hw₁.room_of_spare)).trans
          (hsame₃.mono fun _ => hw₂.room_of_spare)
      have hkept : m₂.get a = x.num :=
        (hsame₂.get_eq (hw₁.held a (.head _)).not_spare).trans hgetx
      refine .of_turns (hturns₁.append (hturns₂.append hturns₃)) hsame (.append_right ?_)
      refine ⟨m₃, hm₃, .refl _ m₃, fun pc out inp hold => ?_⟩
      have hcells : a'.cells = b'.cells := congrArg Width.cells (hwa.trans hwb.symm)
      have hlead := advances_relationTest (p := ⟨pc, m₃, out, inp⟩) hm₃ (hw₃.placed (by simp))
        (hw₃.placed (by simp)) hcells hold
      rwa [hgeta, hgetb, hkept, hgety] at hlead

/-- Two tests one after the other, of which the second one matters only if the first one holds. -/
theorem branches_and {test₁ test₂ : List TestLine} {yes no yes' no' next : String}
    {t u : Option Bool} (h : image.Branches ρ test₁ next no' room m t)
    (h' : t = some true → ∀ m', m'.Nibbles → m.SameBut room m' →
      image.Branches ρ test₂ yes' no' room m' u) :
    image.Branches ρ (Code.continued next no' next test₁ ++ Code.merged yes' no' test₂) yes no room
      m (t.bind fun b => if b = false then some false else u) := by
  have hboth : image.Branches ρ (Code.continued next no' next test₁ ++ test₂) yes' no' room m
      (t.bind fun b => if b = false then some false else u) := h.continued false rfl rfl h'
  exact (hboth.merged yes no).congr (by simp [Code.merged, Code.continued])

/-- One more alternative, which matters only if those before it fail. -/
theorem branches_next {test test' : List TestLine} {yes no next : String} {t u : Option Bool}
    (h : image.Branches ρ test yes next room m t)
    (h' : t = some false → ∀ m', m'.Nibbles → m.SameBut room m' →
      image.Branches ρ test' yes no room m' u) :
    image.Branches ρ (Code.continued yes next next test ++ test') yes no room m
      (Cond.either t u) :=
  h.continued true rfl rfl h'

/-- The last alternative. -/
theorem branches_last {test test' : List TestLine} {yes no yes' no' next : String}
    {t u : Option Bool} (h : image.Branches ρ test yes' next room m t)
    (h' : t = some false → ∀ m', m'.Nibbles → m.SameBut room m' →
      image.Branches ρ test' yes' no' room m' u) :
    image.Branches ρ (Code.continued yes' next next test ++ Code.merged yes' no' test') yes no room
      m (Cond.either t u) := by
  have hboth : image.Branches ρ (Code.continued yes' next next test ++ test') yes' no' room m
      (Cond.either t u) := branches_next h h'
  exact (hboth.merged yes no).congr (by simp [Code.merged, Code.continued])

/-- What is shown of a condition, which continues a chain of alternatives if there is one. -/
def Decided (image : Image) (ρ : String → Nat) (room : Nat → Prop) (m : Memory)
    (chain : Option Chain) (test : List TestLine) (u : Option Bool) : Prop :=
  match chain with
  | none => ∀ yes no, image.Branches ρ test yes no room m u
  | some ch => ∀ t, (∀ next, image.Branches ρ ch.test ch.yes next room m t) →
      ∀ yes no, image.Branches ρ test yes no room m (Cond.either t u)

variable (image ρ out) in
theorem decided (h : Coded sc chain s c test s') (hr : sc.Ready room) (hw : Workspace room s [])
    (hm : m.Nibbles) : Decided image ρ room m chain test (c.truth sc.decls (sc.view m out)) := by
  induction h generalizing m with
  | compare ha hb hmatch => exact branches_of_compare ha hb hmatch hr hw hm
  | @nonzero s s' e lines v h =>
    have hv := (h.books hr.ledger hw).placed (.head _)
    intro yes no
    refine branches_of_yields (f := (· != 0)) h hr hw hm fun p hp hold => ?_
    have hlead := advances_nonzeroTest hp hv hold
    by_cases hzero : p.mem.get v = 0 <;> simpa [hzero] using hlead
  | @odd s s' e lines v h =>
    have hv := (h.books hr.ledger hw).placed (.head _)
    intro yes no
    refine branches_of_yields (f := (· % 2 == 1)) h hr hw hm fun p hp hold => ?_
    simpa using advances_oddTest hp hv hold
  | group _ ih => exact ih hw hm
  | and hl _ ihl ihr =>
    intro yes no
    have hw₁ := (hl.books hr.ledger hw).skip 3
    rw [Cond.truth_and]
    exact branches_and (ihl hw hm _ _) fun _ m' hm' hsame =>
      hr.view_congr hsame out ▸ ihr hw₁ hm' _ _
  | or hl _ ihl ihr =>
    intro yes no
    have hw₁ := (hl.books hr.ledger hw).skip 2
    exact ihr hw₁ hm _ (fun next => ihl hw hm _ next) yes no
  | next hl _ ihl ihr =>
    intro t ht yes no
    have hw₁ := hl.books hr.ledger (hw.skip 1)
    rw [Cond.truth_or, ← Cond.either_assoc]
    refine ihr hw₁ hm _ (fun next => branches_next (ht _) fun _ m' hm' hsame => ?_) yes no
    exact hr.view_congr hsame out ▸ ihl (hw.skip 1) hm' _ next
  | last _ _ ih =>
    intro t ht yes no
    exact branches_last (ht _) fun _ m' hm' hsame =>
      hr.view_congr hsame out ▸ ih (hw.skip 1) hm' _ _

end Cond.Coded

end NibblePascal
