import NibblePascal.Proofs.Generation.Entered
import NibblePascal.Proofs.Generation.Plan
import NibblePascal.Proofs.Generation.Unique

/-!
# Where the code of a statement stands

Every statement that generation reaches has its code in a room of the program, within the code of
the statement that fills the room.

* `Stmt.Enters.coded`: the code of a part of a statement stands within the code of the statement;
* `Origin`, `Room.From`: the statement that fills a room, with the outline that it began at;
* `Program.exists_origins`: what generation reaches in a program is what it reaches in the
  statements of its rooms.
-/

namespace NibblePascal

/-! ### Parts of statements -/

theorem Stmt.Enters.asmFree {st st' : Stmt} {g g' : Generator} {limits : List Var}
    (h : st.Enters g limits st' g') (hst : st.asmFree = true) : st'.asmFree = true := by
  induction h with
  | self => exact hst
  | seqFirst _ ih | ifElseYes _ _ ih => exact ih (Bool.and_eq_true_iff.1 hst).1
  | seqRest _ _ ih | ifElseNo _ _ _ _ ih => exact ih (Bool.and_eq_true_iff.1 hst).2
  | block _ ih | ifThen _ _ ih | whileDo _ _ ih | repeatUntil _ _ ih | forDo _ _ ih => exact ih hst

/-! The code of a body within the code of its statement. -/

namespace Piece

theorem infix_ifThen (n : Nat) (t : List TestLine) (body : List Piece) : body <:+: ifThen n t body :=
  ⟨test n (n + 2) t ++ [mark n], [mark (n + 2)], by simp [ifThen]⟩

theorem infix_ifElse_first (n : Nat) (t : List TestLine) (first second : List Piece) :
    first <:+: ifElse n t first second :=
  ⟨test n (n + 1) t ++ [mark n], goto (n + 2) :: mark (n + 1) :: (second ++ [mark (n + 2)]),
    by simp [ifElse]⟩

theorem infix_ifElse_second (n : Nat) (t : List TestLine) (first second : List Piece) :
    second <:+: ifElse n t first second :=
  ⟨test n (n + 1) t ++ (mark n :: (first ++ [goto (n + 2), mark (n + 1)])), [mark (n + 2)],
    by simp [ifElse]⟩

theorem infix_whileDo (n : Nat) (t : List TestLine) (body : List Piece) : body <:+: whileDo n t body :=
  ⟨mark n :: (test (n + 1) (n + 2) t ++ [mark (n + 1)]), [goto n, mark (n + 2)], by simp [whileDo]⟩

theorem infix_repeatUntil (n : Nat) (body : List Piece) (t : List TestLine) :
    body <:+: repeatUntil n body t :=
  ⟨[mark n], test (n + 1) n t ++ [mark (n + 1)], by simp [repeatUntil]⟩

theorem infix_forLoop (n : Nat) (past : List TestLine) (body : List Piece) (done : List TestLine)
    (step : List Line) : body <:+: forLoop n past body done step :=
  ⟨mark n :: (test (n + 3) (n + 1) past ++ [mark (n + 1)]), test (n + 3) (n + 2) done
    ++ (mark (n + 2) :: (ofLines step ++ [goto n, mark (n + 3)])), by simp [forLoop]⟩

end Piece

/-- The code of a part stands within the code of the statement, and what a ledger says before the
statement it says before the part, with the limits in use. -/
theorem Stmt.Enters.coded {st st' : Stmt} {g g' : Generator} {limits vs : List Var}
    (h : st.Enters g limits st' g') {o : Outline} {W : Stock → List Var → Prop} (hd : o.Distinct)
    (hW : Ledger o.scope W) {s s' : Stock} {code₀ code : List Piece}
    (hg : g = (o.restock s).generator code₀) (hc : Stmt.Coded o.scope s st code s') (hw : W s vs) :
    ∃ s₁ s₂ code₁ part, g' = (o.restock s₁).generator code₁ ∧ W s₁ (limits ++ vs)
      ∧ Stmt.Coded o.scope s₁ st' part s₂ ∧ part <:+: code ∧ s₂.memory.Grows s'.memory := by
  have hgrows : ∀ {a : Allocator}, Ledger o.scope fun s _ => a.Grows s.memory :=
    Allocator.Grows.ledger o.scope _
  induction h generalizing s s' code₀ code vs with
  | self => exact ⟨s, s', code₀, code, hg, hw, hc, List.infix_rfl, .refl _⟩
  | seqFirst _ ih =>
    cases hc with
    | seq hf hr =>
      obtain ⟨s₁, s₂, code₁, part, hg', hw', hpart, hin, hgrow⟩ := ih hg hf hw
      exact ⟨s₁, s₂, code₁, part, hg', hw', hpart, hin.trans (List.infix_append' [] _ _),
        hr.upholds hgrows hgrow⟩
  | @seqRest first _ _ _ _ _ _ hf _ ih =>
    subst hg
    obtain ⟨code', s', hfirst, rfl⟩ := first.generates hd hf
    cases hc with
    | seq hf' hr =>
      obtain ⟨rfl, rfl⟩ := hfirst.unique hf'
      obtain ⟨s₁, s₂, code₁, part, hg', hw', hpart, hin, hgrow⟩ := ih rfl hr (hfirst.books hW hw)
      exact ⟨s₁, s₂, code₁, part, hg', hw', hpart, hin.trans (List.suffix_append ..).isInfix, hgrow⟩
  | block _ ih =>
    cases hc with
    | block hb => exact ih hg hb hw
  | ifThen ho _ ih =>
    subst hg
    obtain ⟨-, test, s₁, hcond, rfl, rfl⟩ := Gen.outline_openChoice ho
    cases hc with
    | ifThen hcond' hy =>
      obtain ⟨rfl, rfl⟩ := hcond.unique hcond'
      obtain ⟨s₁, s₂, code₁, part, hg', hw', hpart, hin, hgrow⟩ :=
        ih rfl hy (hcond.books hW (hW.skip 3 hw))
      exact ⟨s₁, s₂, code₁, part, hg', hw', hpart, hin.trans (Piece.infix_ifThen ..), hgrow⟩
  | ifElseYes ho _ ih =>
    subst hg
    obtain ⟨-, test, s₁, hcond, rfl, rfl⟩ := Gen.outline_openChoice ho
    cases hc with
    | ifElse hcond' hy hn =>
      obtain ⟨rfl, rfl⟩ := hcond.unique hcond'
      obtain ⟨s₁, s₂, code₁, part, hg', hw', hpart, hin, hgrow⟩ :=
        ih rfl hy (hcond.books hW (hW.skip 3 hw))
      exact ⟨s₁, s₂, code₁, part, hg', hw', hpart, hin.trans (Piece.infix_ifElse_first ..),
        hn.upholds hgrows hgrow⟩
  | @ifElseNo _ _ yes _ _ _ _ _ _ _ _ _ ho hy hn _ ih =>
    subst hg
    obtain ⟨-, test, s₁, hcond, rfl, rfl⟩ := Gen.outline_openChoice ho
    obtain ⟨code', s', hyes, rfl⟩ := yes.generates hd hy
    rw [List.append_assoc, List.append_assoc] at hn
    obtain rfl := Gen.outline_otherwise hn
    cases hc with
    | ifElse hcond' hy' hn' =>
      obtain ⟨rfl, rfl⟩ := hcond.unique hcond'
      obtain ⟨rfl, rfl⟩ := hyes.unique hy'
      obtain ⟨s₁, s₂, code₁, part, hg', hw', hpart, hin, hgrow⟩ :=
        ih rfl hn' (hyes.books hW (hcond.books hW (hW.skip 3 hw)))
      exact ⟨s₁, s₂, code₁, part, hg', hw', hpart, hin.trans (Piece.infix_ifElse_second ..), hgrow⟩
  | whileDo ho _ ih =>
    subst hg
    obtain ⟨-, test, s₁, hcond, rfl, rfl⟩ := Gen.outline_openWhile ho
    cases hc with
    | whileDo hcond' hb =>
      obtain ⟨rfl, rfl⟩ := hcond.unique hcond'
      obtain ⟨s₁, s₂, code₁, part, hg', hw', hpart, hin, hgrow⟩ :=
        ih rfl hb (hcond.books hW (hW.skip 3 hw))
      exact ⟨s₁, s₂, code₁, part, hg', hw', hpart, hin.trans (Piece.infix_whileDo ..), hgrow⟩
  | repeatUntil ho _ ih =>
    subst hg
    obtain ⟨rfl, rfl⟩ := Gen.outline_openRepeat ho
    cases hc with
    | repeatUntil hb hcond =>
      obtain ⟨s₁, s₂, code₁, part, hg', hw', hpart, hin, hgrow⟩ := ih rfl hb (hW.skip 2 hw)
      exact ⟨s₁, s₂, code₁, part, hg', hw', hpart, hin.trans (Piece.infix_repeatUntil ..),
        hcond.upholds hgrows hgrow⟩
  | forDo ho _ ih =>
    subst hg
    obtain ⟨-, v, start, bound, limit, lines₁, lines₂, s₁, s₂, s₃, hx, hf, hl, ht, -, rfl, rfl⟩ :=
      Gen.outline_openFor ho
    cases hc with
    | forDo hx' hf' hl' ht' _ hb =>
      obtain rfl := Scope.scalar_unique hx hx'
      obtain ⟨rfl, rfl, rfl⟩ := hf.unique hf'
      obtain ⟨rfl, rfl, rfl⟩ := hl.unique hl'
      obtain ⟨rfl, rfl⟩ := ht.unique ht'
      obtain ⟨s₁, s₂, code₁, part, hg', hw', hpart, hin, hgrow⟩ :=
        ih rfl hb (hW.skip _ (hW.skip 4 (hW.limit hf hl ht hw)))
      exact ⟨s₁, s₂, code₁, part, hg', by simpa using hw', hpart,
        (hin.trans (Piece.infix_forLoop ..)).trans (List.infix_append' ..), hgrow.release _⟩

/-! ### Rooms and the statements that fill them -/

/-- A statement, with the outline at which its code begins and the code before it. -/
structure Origin where
  outline : Outline
  code : List Piece
  st : Stmt

/-- What generation reaches in the statement. -/
def Origin.Enters (w : Origin) (limits : List Var) (st : Stmt) (g : Generator) : Prop :=
  w.st.Enters (w.outline.generator w.code) limits st g

/-- The room is filled with the code of the statement, which stands in a program that is `o` in the
end, and the calls of the statement are among the given ones. -/
structure Room.From (calls : List (Option String × String)) (o : Outline) (r : Room) (w : Origin) :
    Prop where
  coded : ∃ stock, Stmt.Coded w.outline.scope w.outline.stock w.st r.body stock
    ∧ (w.outline.restock stock).Precedes o
  asmFree : w.st.asmFree = true
  tidy : w.outline.Tidy
  selective : w.outline.Selective
  distinct : w.outline.Distinct
  callees : ∀ p ∈ w.st.callees, (r.name, p) ∈ calls

namespace Room.From

variable {calls calls' : List (Option String × String)} {o : Outline} {r : Room} {w : Origin}

theorem mono (h : r.From calls o w) (hsub : calls ⊆ calls') : r.From calls' o w :=
  { h with callees := fun p hp => hsub (h.callees p hp) }

theorem holds (h : r.From calls o w) : r.Holds calls o := by
  obtain ⟨stock, hcoded, hprec⟩ := h.coded
  exact ⟨w.outline, w.st, stock, hcoded, h.asmFree, h.tidy, h.selective, hprec, h.callees⟩

end Room.From

/-- The rooms are filled with the statements at their origins, and what generation reaches in these
statements is `enters`. -/
structure Room.Stem (calls : List (Option String × String)) (o : Outline) (rooms : List Room)
    (enters : List Var → Stmt → Generator → Prop) : Prop where
  origin : ∀ r ∈ rooms, ∃ w, r.From calls o w ∧ ∀ limits st g, w.Enters limits st g →
    enters limits st g
  entered : ∀ {limits st g}, enters limits st g → ∃ r ∈ rooms, ∃ w, r.From calls o w
    ∧ w.Enters limits st g

namespace Room.Stem

variable {calls calls' : List (Option String × String)} {o : Outline} {rooms rooms' : List Room}
  {enters enters' : List Var → Stmt → Generator → Prop}

theorem congr (h : Stem calls o rooms enters)
    (hiff : ∀ limits st g, enters limits st g ↔ enters' limits st g) : Stem calls o rooms enters' where
  origin := fun r hr =>
    have ⟨w, hfrom, henters⟩ := h.origin r hr
    ⟨w, hfrom, fun limits st g hw => (hiff limits st g).1 (henters limits st g hw)⟩
  entered := fun he => h.entered ((hiff _ _ _).2 he)

theorem mono (h : Stem calls o rooms enters) (hsub : calls ⊆ calls') : Stem calls' o rooms enters where
  origin := fun r hr =>
    have ⟨w, hfrom, henters⟩ := h.origin r hr
    ⟨w, hfrom.mono hsub, henters⟩
  entered := fun he =>
    have ⟨r, hr, w, hfrom, hw⟩ := h.entered he
    ⟨r, hr, w, hfrom.mono hsub, hw⟩

theorem append (h : Stem calls o rooms enters) (h' : Stem calls o rooms' enters') :
    Stem calls o (rooms ++ rooms') fun limits st g => enters limits st g ∨ enters' limits st g where
  origin := by
    intro r hr
    obtain hr | hr := List.mem_append.1 hr
    · obtain ⟨w, hfrom, henters⟩ := h.origin r hr
      exact ⟨w, hfrom, fun limits st g hw => .inl (henters limits st g hw)⟩
    · obtain ⟨w, hfrom, henters⟩ := h'.origin r hr
      exact ⟨w, hfrom, fun limits st g hw => .inr (henters limits st g hw)⟩
  entered := by
    rintro limits st g (he | he)
    · obtain ⟨r, hr, hw⟩ := h.entered he
      exact ⟨r, List.mem_append_left _ hr, hw⟩
    · obtain ⟨r, hr, hw⟩ := h'.entered he
      exact ⟨r, List.mem_append_right _ hr, hw⟩

end Room.Stem

section Blocks

variable {label name : String} {g g₁ g₂ g₃ g₄ g' : Generator} {limits : List Var} {st st' : Stmt}
  {rest : Block}

theorem Block.enters_code_iff (hp : Gen.place label g = .ok () g₁) :
    Block.Enters label name (.code st) g limits st' g' ↔ st.Enters g₁ limits st' g' := by
  refine ⟨fun h => ?_, .code hp⟩
  cases h with
  | code hp' h =>
    cases hp.symm.trans hp'
    exact h

theorem Block.enters_declare_iff {x : Token} {width : Width} {len : Option Nat}
    (hd : Gen.declareVariable name x width len g = .ok () g₁) :
    Block.Enters label name (.declare x width len rest) g limits st g' ↔
      Block.Enters label name rest g₁ limits st g' := by
  refine ⟨fun h => ?_, .declare hd⟩
  cases h with
  | declare hd' h =>
    cases hd.symm.trans hd'
    exact h

theorem Block.enters_procedure_iff {p : Token} {body : Block} {close : Gate}
    (hd : Gen.declareProcedure p g = .ok () g₁)
    (hb : Gen.inScope (body.generate (Gen.procedureLabel p.text) p.text) g₁ = .ok () g₂)
    (hc : Gen.pass close g₂ = .ok () g₃) (he : Gen.endProcedure p.text g₃ = .ok () g₄) :
    Block.Enters label name (.procedure p body close rest) g limits st g' ↔
      Block.Enters (Gen.procedureLabel p.text) p.text body { g₁ with scope := g₁.scope.enter } limits
        st g'
      ∨ Block.Enters label name rest g₄ limits st g' := by
  refine ⟨fun h => ?_, fun h => h.elim (.body hd) (.rest hd hb hc he)⟩
  cases h with
  | body hd' h =>
    cases hd.symm.trans hd'
    exact .inl h
  | rest hd' hb' hc' he' h =>
    cases hd.symm.trans hd'
    cases hb.symm.trans hb'
    cases hc.symm.trans hc'
    cases he.symm.trans he'
    exact .inr h

end Blocks

/-- The code of a block is made of the rooms of its procedures and of a last one for its statements,
and what generation reaches in the block it reaches in the statements of the rooms. -/
theorem Block.stem_of_generate {b : Block} {label name : String} {o : Outline} {code₀ : List Piece}
    {g' : Generator} (hgen : b.generate label name (o.generator code₀) = .ok () g')
    (hs : o.Sound code₀) (hb : b.asmFree = true) (hfit : b.arraysFit = true) (ht : o.Tidy)
    (hsel : o.Selective) (caller : Option String) :
    ∃ (o' : Outline) (rooms : List Room) (body : List Piece),
      g' = o'.generator (code₀ ++ (rooms.flatMap Room.pieces ++ (.line (.label label) :: body)))
        ∧ Block.Coded label name o b (rooms.flatMap Room.pieces ++ (.line (.label label) :: body)) o'
        ∧ (∀ r ∈ rooms, ∃ p, r.name = some p)
        ∧ ∀ last, o'.Precedes last → Room.Stem (b.calls caller) last (rooms ++ [⟨caller, body⟩])
          (Block.Enters label name b (o.generator code₀)) := by
  induction b generalizing label name o code₀ g' caller with
  | fault why => exact (Gen.not_fail hgen).elim
  | code st =>
    obtain ⟨_, _, hplace, hst⟩ := Gen.of_bind hgen
    have hg₁ := Gen.outline_place hplace
    subst hg₁
    obtain ⟨body, s', hc, rfl⟩ := st.generates hs.distinct (s := o.stock) hst
    refine ⟨_, [], body, by simp [Outline.restock], .code hc, nofun, fun last hlast => ?_⟩
    have hfrom : Room.From ((Block.code st).calls caller) last ⟨caller, body⟩
        ⟨o, code₀ ++ [.line (.label label)], st⟩ :=
      ⟨⟨s', hc, hlast⟩, hb, ht, hsel, hs.distinct, fun p hp => List.mem_map_of_mem hp⟩
    refine ⟨fun r hr => ?_, fun h =>
      ⟨_, .head _, _, hfrom, (Block.enters_code_iff hplace).1 h⟩⟩
    rw [List.mem_singleton.1 hr]
    exact ⟨_, hfrom, fun _ _ _ h => .code hplace h⟩
  | declare x width len rest ih =>
    obtain ⟨_, _, hd, hgen⟩ := Gen.of_bind hgen
    obtain ⟨hlen, hrest⟩ := Bool.and_eq_true_iff.1 hfit
    cases len with
    | none =>
      obtain ⟨v, memory, sc, hv, hsc, rfl⟩ := Gen.of_declareScalar hd
      obtain ⟨o', rooms, body, hg', hc, hnamed, hstem⟩ := ih hgen (hs.declare hsc) hb hrest
        (Outline.tidy_invariant.scalar ht hv hsc) (Outline.selective_invariant.scalar hsel hv hsc) caller
      exact ⟨o', rooms, body, hg', .scalar hv hsc hc, hnamed, fun last hlast =>
        (hstem last hlast).congr fun _ _ _ => (Block.enters_declare_iff hd).symm⟩
    | some len =>
      obtain ⟨a, memory, sc, ha, hsc, rfl⟩ := Gen.of_declareArray hd
      have hlen' := of_decide_eq_true hlen
      obtain ⟨o', rooms, body, hg', hc, hnamed, hstem⟩ := ih hgen (hs.declare hsc) hb hrest
        (Outline.tidy_invariant.array ht ha hlen' hsc)
        (Outline.selective_invariant.array hsel ha hlen' hsc) caller
      exact ⟨o', rooms, body, hg', .array ha hsc hc, hnamed, fun last hlast =>
        (hstem last hlast).congr fun _ _ _ => (Block.enters_declare_iff hd).symm⟩
  | procedure p body close rest ihb ihr =>
    obtain ⟨_, _, hd, hgen⟩ := Gen.of_bind hgen
    obtain ⟨_, _, hscope, hgen⟩ := Gen.of_bind hgen
    obtain ⟨_, _, hclose, hgen⟩ := Gen.of_bind hgen
    obtain ⟨_, _, hend, hgen⟩ := Gen.of_bind hgen
    obtain ⟨hb₁, hb₂⟩ := Bool.and_eq_true_iff.1 hb
    obtain ⟨hfit₁, hfit₂⟩ := Bool.and_eq_true_iff.1 hfit
    obtain ⟨selector, memory, sc, hn, hsc, hv, rfl⟩ := Gen.of_declareProcedure hs hd
    obtain ⟨_, _, hbody, rfl⟩ := Gen.of_inScope hscope
    have hopen := hs.openBody memory (q := ⟨p.text, selector, p.pos⟩) hn hsc
    have ht₁ := Outline.tidy_invariant.openBody ht hn hsc hv
    have hs₁ := Outline.selective_invariant.openBody hsel hn hsc hv
    obtain ⟨o₁, rooms₁, body₁, rfl, hc₁, hnamed₁, hstem₁⟩ :=
      ihb hbody hopen hb₁ hfit₁ ht₁ hs₁ (some p.text)
    have hq : p.text ∈ o₁.headings.map (·.name) :=
      List.mem_map_of_mem (f := (·.name)) (hc₁.headings_prefix.subset
        (by simp [Outline.openBody] : (⟨p.text, selector, p.pos⟩ : Heading) ∈ _))
    obtain ⟨rfl, rfl⟩ := Gen.of_pass hclose
    have hsound := hc₁.sound hopen
    have hg₄ := Gen.of_endProcedure (o := o₁.leave) hsound.distinct hq hend
    subst hg₄
    have ht₂ := Outline.tidy_invariant.leave (hc₁.keeps Outline.tidy_invariant hfit₁ ht₁)
    have hs₂ := Outline.selective_invariant.leave (hc₁.keeps Outline.selective_invariant hfit₁ hs₁)
    obtain ⟨o₂, rooms₂, body₂, rfl, hc₂, hnamed₂, hstem₂⟩ :=
      ihr hgen (hsound.closeBody hq) hb₂ hfit₂ ht₂ hs₂ caller
    have hprec : o₁.Precedes o₂ :=
      (hc₂.keeps (Outline.precedes_invariant o₁) hfit₂ ⟨ht₂.housed, ⟨.refl _, fun q hq => .inl hq⟩⟩).2
    have hcode : (rooms₁ ++ ⟨some p.text, body₁⟩ :: rooms₂).flatMap Room.pieces
        ++ (.line (.label label) :: body₂) =
        (rooms₁.flatMap Room.pieces ++ (.line (.label (Gen.procedureLabel p.text)) :: body₁))
          ++ (.finish p.text :: .line (.endProc p.text) :: (rooms₂.flatMap Room.pieces
            ++ (.line (.label label) :: body₂))) := by
      simp [Room.pieces, Room.label, Room.ending]
    refine ⟨o₂, rooms₁ ++ ⟨some p.text, body₁⟩ :: rooms₂, body₂, ?_, ?_, ?_, fun last hlast => ?_⟩
    · rw [hcode]
      simp
    · rw [hcode]
      exact .procedure hn hsc hv hc₁ hc₂
    · intro r hr
      obtain hr | hr := List.mem_append.1 hr
      · exact hnamed₁ r hr
      · obtain rfl | hr := List.mem_cons.1 hr
        · exact ⟨p.text, rfl⟩
        · exact hnamed₂ r hr
    · have hstem := ((hstem₁ last (hprec.trans hlast)).mono (List.subset_append_left ..)).append
        ((hstem₂ last hlast).mono (List.subset_append_right (body.calls (some p.text)) _))
      rw [List.append_assoc, List.singleton_append, ← List.cons_append, ← List.append_assoc] at hstem
      exact hstem.congr fun _ _ _ => (Block.enters_procedure_iff hd hscope hclose hend).symm

/-- What generation reaches in a program is what it reaches in the statements of its rooms. -/
theorem Program.exists_origins {p : Program} {g : Generator} (hgen : p.generate {} = .ok () g)
    (hp : p.block.asmFree = true) (hfit : p.block.arraysFit = true) :
    ∃ code o rooms, p.Coded code o ∧ g.code.lines = o.lines (pieces code)
      ∧ g.memory = o.stock.memory ∧ p.InRooms code o rooms
      ∧ Room.Stem (p.block.calls none) o rooms p.Enters := by
  obtain ⟨code, o, hcoded, hlines, hmemory⟩ := coded_of_generate hp hgen
  obtain ⟨_, g₀, hemit, h⟩ := Gen.of_bind hgen
  obtain ⟨_, _, hscope, -⟩ := Gen.of_bind h
  obtain ⟨_, _, hblock, -⟩ := Gen.of_inScope hscope
  have hg₀ := Gen.of_emit hemit
  subst hg₀
  obtain ⟨o', rooms, body, -, hc, hnamed, hstem⟩ := Block.stem_of_generate hblock start_sound hp hfit
    Outline.tidy_start Outline.selective_start none
  obtain ⟨rfl, rfl⟩ := hcoded.block.unique hc
  have hstem' := hstem o (.refl o)
  refine ⟨_, o, rooms ++ [⟨none, body⟩], hcoded, hlines, hmemory, ⟨?_, ⟨rooms, body, rfl, hnamed⟩, ?_⟩, ?_⟩
  · simp [Room.pieces, Room.label, Room.ending]
  · intro r hr
    obtain ⟨w, hfrom, -⟩ := hstem'.origin r hr
    exact hfrom.holds
  · refine hstem'.congr fun limits st g => ⟨fun h => ⟨_, hemit, h⟩, ?_⟩
    rintro ⟨g₁, hemit', h⟩
    cases hemit.symm.trans hemit'
    exact h

end NibblePascal
