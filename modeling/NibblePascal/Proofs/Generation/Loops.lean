import NibblePascal.Proofs.Assembly.Stored
import NibblePascal.Proofs.Generation.Origins

/-!
# The limits of counted loops

The code of a counted loop stands between the label of its test and that of its end.  Its limit is
in use there, so the code between the labels writes to other variables only.

* `T.without u`: the territory without a variable;
* `Stmt.Coded.exists_loop`: the code of a counted loop, where it calls and where it stores;
* `Room.HasLoop`: so it stands in a room, `Room.From.hasLoop`, and in what is left of the room,
  `Room.HasLoop.thins`.
-/

namespace NibblePascal

namespace Territory

variable {T : Territory} {sc : Scope} {a : Allocator} {u v : Var} {vs : List Var} {lines : List Line}
  {bank bank' addr : Nat}

/-- The territory without a variable. -/
def without (T : Territory) (u : Var) : Territory := ⟨fun v => T.scalar v ∧ v ≠ u, T.array⟩

/-- A variable in use can be left out, unless it has a name. -/
theorem Spans.without (h : T.Spans sc a vs) (hu : u ∈ vs)
    (hsc : ∀ {x v}, sc.find? x = some (.scalar v) → v ≠ u) : (T.without u).Spans sc a vs where
  temporary := fun v hv hvs => ⟨h.temporary v hv hvs, fun heq => hvs (heq ▸ hu)⟩
  scalar := fun hx => ⟨h.scalar hx, hsc hx⟩
  array := h.array

/-- Guarded code stores into cells of the territory. -/
theorem Guards.owns_of_store (h : T.Guards bank lines bank') (hs : Code.store addr ∈ lines) :
    T.Owns addr := by
  obtain ⟨before, after, rfl⟩ := List.append_of_mem hs
  obtain ⟨_, -, hrest⟩ := guards_append.1 h
  exact hrest.1.2

end Territory

/-- The code of a counted loop between its first and its last label. -/
def Piece.rounds (n : Nat) (past : List TestLine) (body : List Piece) (done : List TestLine)
    (step : List Line) : List Piece :=
  test (n + 3) (n + 1) past ++ (mark (n + 1) :: (body ++ (test (n + 3) (n + 2) done
    ++ (mark (n + 2) :: (ofLines step ++ [goto n])))))

theorem Piece.forLoop_append (n : Nat) (past : List TestLine) (body : List Piece)
    (done : List TestLine) (step : List Line) (after : List Piece) :
    forLoop n past body done step ++ after =
      mark n :: (rounds n past body done step ++ mark (n + 3) :: after) := by
  simp [forLoop, rounds]

/-- The pieces store into cells of the territory only, and call only what the statement calls. -/
structure Piece.Repeats (T : Territory) (body : Stmt) (code : List Piece) : Prop where
  stores : ∀ addr, .line (Code.store addr) ∈ code → T.Owns addr
  calls : ∀ q ret, .call q ret ∈ code → q ∈ body.callees

namespace Piece.Repeats

variable {T : Territory} {body : Stmt} {a b : List Piece}

theorem append (ha : Repeats T body a) (hb : Repeats T body b) : Repeats T body (a ++ b) :=
  ⟨fun addr hs => (List.mem_append.1 hs).elim (ha.stores addr) (hb.stores addr),
    fun q ret hc => (List.mem_append.1 hc).elim (ha.calls q ret) (hb.calls q ret)⟩

theorem ofLines {lines : List Line} (h : ∀ addr, Code.store addr ∈ lines → T.Owns addr) :
    Repeats T body (ofLines lines) := by
  refine ⟨fun addr hs => h addr ?_, by simp [Piece.ofLines]⟩
  simpa [Piece.ofLines] using hs

theorem rounds (h : Repeats T body a) (n : Nat) {past done : List TestLine} {step : List Line}
    (hpast : ∀ yes no addr, Code.store addr ∉ Code.closeTest yes no past)
    (hdone : ∀ yes no addr, Code.store addr ∉ Code.closeTest yes no done)
    (hstep : ∀ addr, Code.store addr ∈ step → T.Owns addr) :
    Repeats T body (rounds n past a done step) := by
  have hmark : ∀ n, Repeats T body [.mark n] :=
    fun n => ⟨by simp [Piece.mark, Code.label, Code.store], by simp [Piece.mark]⟩
  have hgoto : Repeats T body [.goto n] :=
    ⟨by simp [Piece.goto, Code.jump, Code.store], by simp [Piece.goto]⟩
  exact (ofLines fun addr hs => absurd hs (hpast _ _ addr)).append ((hmark (n + 1)).append (h.append
    ((ofLines fun addr hs => absurd hs (hdone _ _ addr)).append ((hmark (n + 2)).append
      ((ofLines hstep).append hgoto)))))

theorem thinned (h : Repeats T body b) (ht : Thinned a b) : Repeats T body a :=
  ⟨fun addr hs => h.stores addr (ht.sublist.subset hs),
    fun q ret hc => h.calls q ret (ht.sublist.subset hc)⟩

end Piece.Repeats

variable {T : Territory} {o : Outline} {x : Token} {down : Bool} {first last : Expr} {gate : Gate}
  {body : Stmt} {k : Gen.Counter} {g₁ : Generator}

/-- The code of a counted loop does not store into the cells of the limit. -/
theorem Stmt.Coded.exists_loop {s s' : Stock} {code₁ code : List Piece} {vs : List Var}
    (h : Stmt.Coded o.scope s (.forDo x down first last gate body) code s')
    (hopen : Gen.openFor x down first last gate ((o.restock s).generator code₁) = .ok k g₁)
    (hbody : body.asmFree = true) (hL : Ledger o.scope fun s vs => s.memory.Lends vs)
    (hl : s.memory.Lends vs) (hT : T.Spans o.scope s'.memory vs)
    (hdeclared : ∀ {x v}, o.scope.find? x = some (.scalar v) → v.temp = false) :
    ∃ n before mid after, code = before ++ (.mark n :: (mid ++ .mark (n + 3) :: after))
      ∧ k.test = Code.labelName n ∧ k.exit = Code.labelName (n + 3)
      ∧ T.scalar k.limit ∧ k.limit.temp = true
      ∧ Piece.Repeats (T.without k.limit) body mid := by
  obtain ⟨-, v, start, bound, limit, lines₁, lines₂, s₁, s₂, s₃, hx, hf, hb, ht, -, rfl, -⟩ :=
    Gen.outline_openFor hopen
  cases h with
  | @forDo _ _ _ _ s₄ _ _ _ _ _ _ _ _ _ _ _ code hx' hf' hb' ht' hw hc =>
    obtain rfl := Scope.scalar_unique hx hx'
    obtain ⟨rfl, rfl, rfl⟩ := hf.unique hf'
    obtain ⟨rfl, rfl, rfl⟩ := hb.unique hb'
    obtain ⟨rfl, rfl⟩ := ht.unique ht'
    have hl₂ := hb.books hL (hL.release (hf.books hL hl))
    have hT₄ : T.Spans o.scope s₄.memory vs := Territory.spans_release.1 hT
    have hT₃ : T.Spans o.scope s₃.memory vs := Territory.spans_release.1 (hc.spans hT₄)
    obtain ⟨hlimit, -⟩ := (hT₃.cons _).taken ht hl₂
    have htemp : limit.temp = true := by
      obtain ⟨memory, ht, rfl⟩ := ht
      exact (hl₂.take ht).2
    have hne : ∀ {x v}, o.scope.find? x = some (.scalar v) → v ≠ limit := by
      rintro x v hx rfl
      rw [hdeclared hx] at htemp
      cases htemp
    have hkeeps := hc.guarded hbody hL (hL.limit hf hb ht hl) ((hT₄.cons _).without (.head _) hne)
    have hstep := (Territory.plain_advanceCounter down
      (T := T.without limit) ⟨hT.scalar hx, hne hx⟩).keeps
    -- The tests write nowhere, and the counter is not the limit.
    have htest : ∀ rel n yes no addr,
        Code.store addr ∉ Code.closeTest yes no (Code.relationTest rel v limit n) :=
      fun rel n yes no addr => Code.writesIn_relationTest (P := fun _ => False) rel n _
    have hcode : Piece.Repeats (T.without limit) body code :=
      ⟨fun addr hs => hkeeps.owns_of_store (List.mem_map_of_mem (f := Piece.plain) hs),
        fun q ret hcall => hc.mem_callees hcall⟩
    exact ⟨s₃.labels, _, _, _, congrArg (Piece.ofLines _ ++ ·) (Piece.forLoop_append ..), rfl, rfl,
      hlimit, htemp, hcode.rounds _ (htest _ _) (htest _ _) fun addr => hstep.owns_of_store⟩

/-- The code of the loop stands in the room, between the label of its test and that of its end. -/
def Room.HasLoop (T : Territory) (body : Stmt) (k : Gen.Counter) (r : Room) : Prop :=
  ∃ n before mid after, r.body = before ++ (.mark n :: (mid ++ .mark (n + 3) :: after))
    ∧ k.test = Code.labelName n ∧ k.exit = Code.labelName (n + 3)
    ∧ T.scalar k.limit ∧ k.limit.temp = true
    ∧ Piece.Repeats (T.without k.limit) body mid

namespace Room

variable {r r' : Room}

/-- Labels stay where a room is thinned. -/
theorem HasLoop.thins (h : r.HasLoop T body k) (ht : r'.Thins r) : r'.HasLoop T body k := by
  obtain ⟨n, before, mid, after, hbody, htest, hexit, hlimit, htemp, hrepeats⟩ := h
  have hthin := ht.2
  rw [hbody] at hthin
  obtain ⟨before', _, hbody', -, hmark⟩ := hthin.of_append
  obtain ⟨_, rfl, hrest⟩ := hmark.of_cons rfl
  obtain ⟨mid', _, rfl, hmid, hend⟩ := hrest.of_append
  obtain ⟨after', rfl, -⟩ := hend.of_cons rfl
  exact ⟨n, before', mid', after', hbody', htest, hexit, hlimit, htemp, hrepeats.thinned hmid⟩

/-- A counted loop that generation reaches has its code in the room. -/
theorem From.hasLoop {calls : List (Option String × String)} {w : Origin} {limits : List Var}
    {g : Generator} (h : r.From calls o w) (ho : o.Selective)
    (henters : w.Enters limits (.forDo x down first last gate body) g)
    (hopen : Gen.openFor x down first last gate g = .ok k g₁) : r.HasLoop o.grounds body k := by
  obtain ⟨stock, hcoded, hprec⟩ := h.coded
  have hL := h.tidy.lends.ledger
  obtain ⟨s₁, s₂, code₁, part, rfl, hl, hpart, ⟨before, after, hbody⟩, hgrows⟩ :=
    henters.coded h.distinct hL (s := w.outline.stock) rfl hcoded h.tidy.lends.memory
  have hsel := Outline.selective_invariant.statement h.selective hcoded
  obtain ⟨n, before', mid, after', rfl, hloop⟩ := hpart.exists_loop hopen
    (henters.asmFree h.asmFree) hL hl ((hprec.spans hsel ho).before hgrows)
    fun hx => h.tidy.lends.scope _ (Scope.mem_of_find? hx).1
  exact ⟨n, before ++ before', mid, after' ++ after, by simp [← hbody], hloop⟩

end Room

end NibblePascal
