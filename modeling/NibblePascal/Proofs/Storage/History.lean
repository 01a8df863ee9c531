import NibblePascal.Storage.Allocator

/-!
# Histories of an allocator

An allocator is asked for one thing after another, and it answers each time.

* `Request`, `Reply`, `Allocator.serve`: one request and its answer;
* `Exchange a q r a'`: all that a request can come to, with the conditions for it;
* `History`: the exchanges so far.  `scalars`, `arrays`, `declared`, `onLoan` and `waiting` read off
  a history alone what has been given out, in which order, which temporaries have not come back, and
  which ones wait to be taken again;
* `Allocator.After Fair h a`: a new allocator has become `a` in the history `h`, in which every
  request was `Fair` when it was made.
-/

namespace NibblePascal

/-- What an allocator can be asked for. -/
inductive Request
  | scalar (name : String) (width : Width) (block : String)
  | array (name : String) (width : Width) (len : Nat) (block : String)
  | temporary (width : Width)
  | release (v : Var)
  | locate (pos : Pos)
  deriving DecidableEq

/-- What an allocator answers. -/
inductive Reply
  | scalar (v : Var)
  | array (r : ArrayVar)
  /-- A variable was put back; it was a temporary or not. -/
  | released (accepted : Bool)
  | located
  | refused (why : Fault)
  deriving DecidableEq

namespace Reply

/-- The answer to a request for a scalar. -/
def ofScalar : Except Fault Var → Reply
  | .ok v => scalar v
  | .error why => refused why

/-- The answer to a request for an array. -/
def ofArray : Except Fault ArrayVar → Reply
  | .ok r => array r
  | .error why => refused why

end Reply

/-- Answer a request. -/
def Allocator.serve (a : Allocator) : Request → Reply × Allocator
  | .scalar name width block => (a.defineVar name width block).map Reply.ofScalar id
  | .array name width len block => (a.defineArray name width len block).map Reply.ofArray id
  | .temporary width => (a.temp width).map Reply.ofScalar id
  | .release v => (a.reclaim v).map Reply.released id
  | .locate pos => (.located, a.locate pos)

/-! ### One exchange -/

/-- The allocator with one more scalar. -/
def Allocator.push (a : Allocator) (v : Var) : Allocator :=
  { a with free := a.free + v.cells, vars := a.vars.push v }

/-- What a request can come to. -/
inductive Exchange (a : Allocator) : Request → Reply → Allocator → Prop
  | scalar {name block : String} {w : Width} (room : a.free + w.cells ≤ scalarSpace) :
      Exchange a (.scalar name w block) (.scalar ⟨name, w, a.free, block, false⟩)
        (a.push ⟨name, w, a.free, block, false⟩)
  | noScalar {name block : String} {w : Width} (full : scalarSpace < a.free + w.cells) :
      Exchange a (.scalar name w block) (.refused (.memory a.here (.scalar w name))) a
  | array {name block : String} {w : Width} {len : Nat} (room : a.bank ≤ lastBank) :
      Exchange a (.array name w len block)
        (.array ⟨name, w, a.slot * slotSize, len, a.bank, block⟩)
        { a with
          slot := if a.slot + 1 = slotsPerBank then 0 else a.slot + 1
          bank := if a.slot + 1 = slotsPerBank then a.bank + 1 else a.bank
          arrays := a.arrays.push ⟨name, w, a.slot * slotSize, len, a.bank, block⟩ }
  | noArray {name block : String} {w : Width} {len : Nat} (full : lastBank < a.bank) :
      Exchange a (.array name w len block) (.refused (.memory a.here (.array name))) a
  | reused {w : Width} {v : Var} {rest : List Var} (pool : a.pools.get w = v :: rest) :
      Exchange a (.temporary w) (.scalar v) { a with pools := a.pools.set w rest }
  | made {w : Width} (pool : a.pools.get w = []) (room : a.free + w.cells ≤ scalarSpace) :
      Exchange a (.temporary w) (.scalar ⟨Allocator.tempName a.temps, w, a.free, "", true⟩)
        { a.push ⟨Allocator.tempName a.temps, w, a.free, "", true⟩ with temps := a.temps + 1 }
  | noTemporary {w : Width} (pool : a.pools.get w = []) (full : scalarSpace < a.free + w.cells) :
      Exchange a (.temporary w) (.refused (.memory a.here (.scalar w (Allocator.tempName a.temps))))
        { a with temps := a.temps + 1 }
  | pooled {v : Var} (temp : v.temp = true) :
      Exchange a (.release v) (.released true)
        { a with pools := a.pools.set v.width (v :: a.pools.get v.width) }
  | kept {v : Var} (temp : v.temp = false) : Exchange a (.release v) (.released false) a
  | located (pos : Pos) : Exchange a (.locate pos) .located (a.locate pos)

theorem Allocator.exchange_serve (a : Allocator) (q : Request) :
    Exchange a q (a.serve q).1 (a.serve q).2 := by
  cases q with
  | scalar name w block =>
    by_cases hroom : a.free + w.cells ≤ scalarSpace
    · have := @Exchange.scalar a name block w hroom
      simpa [serve, defineVar, define, Nat.not_lt.2 hroom, Reply.ofScalar, push, Var.cells] using this
    · have hfull := Nat.lt_of_not_le hroom
      simpa [serve, defineVar, define, hfull, Reply.ofScalar] using Exchange.noScalar hfull
  | array name w len block =>
    by_cases hroom : a.bank ≤ lastBank
    · have := @Exchange.array a name block w len hroom
      simpa [serve, defineArray, Nat.not_lt.2 hroom, Reply.ofArray] using this
    · have hfull := Nat.lt_of_not_le hroom
      simpa [serve, defineArray, hfull, Reply.ofArray] using Exchange.noArray hfull
  | temporary w =>
    cases hpool : a.pools.get w with
    | cons v rest => simpa [serve, temp, hpool, Reply.ofScalar] using Exchange.reused hpool
    | nil =>
      by_cases hroom : a.free + w.cells ≤ scalarSpace
      · simpa [serve, temp, hpool, define, Nat.not_lt.2 hroom, Reply.ofScalar, push, Var.cells]
          using Exchange.made hpool hroom
      · have hfull := Nat.lt_of_not_le hroom
        simpa [serve, temp, hpool, define, hfull, Reply.ofScalar]
          using Exchange.noTemporary hpool hfull
  | release v =>
    cases htemp : v.temp with
    | true => simpa [serve, reclaim, release, htemp] using Exchange.pooled htemp
    | false => simpa [serve, reclaim, release, htemp] using Exchange.kept htemp
  | locate pos => exact .located pos

/-- A request that is refused leaves everything given out as it was. -/
theorem Exchange.refused {a a' : Allocator} {q : Request} {why : Fault}
    (h : Exchange a q (.refused why) a') :
    a'.vars = a.vars ∧ a'.arrays = a.arrays ∧ a'.free = a.free ∧ a'.pools = a.pools := by
  cases h <;> exact ⟨rfl, rfl, rfl, rfl⟩

/-! ### Many exchanges -/

/-- The exchanges so far, the latest first. -/
abbrev History := List (Request × Reply)

namespace History

/-- The scalars given out, each once, in the order in which they were first given out. -/
def scalars : History → List Var
  | [] => []
  | (_, .scalar v) :: h => if v ∈ scalars h then scalars h else scalars h ++ [v]
  | _ :: h => scalars h

/-- The arrays given out, in order. -/
def arrays : History → List ArrayVar
  | [] => []
  | (_, .array r) :: h => arrays h ++ [r]
  | _ :: h => arrays h

/-- The scalars that are no temporaries. -/
def declared : History → List Var
  | [] => []
  | (.scalar .., .scalar v) :: h => v :: declared h
  | _ :: h => declared h

/-- The temporaries given out and not put back since. -/
def onLoan : History → List Var
  | [] => []
  | (.temporary _, .scalar v) :: h => v :: onLoan h
  | (.release v, _) :: h => (onLoan h).erase v
  | _ :: h => onLoan h

/-- The temporaries of a width that were put back and not taken since, the last one put back
first. -/
def waiting (w : Width) : History → List Var
  | [] => []
  | (.release v, .released true) :: h => if v.width = w then v :: waiting w h else waiting w h
  | (.temporary w', .scalar _) :: h => if w' = w then (waiting w h).tail else waiting w h
  | _ :: h => waiting w h

theorem scalars_subset_cons (e : Request × Reply) (h : History) : h.scalars ⊆ scalars (e :: h) := by
  obtain ⟨q, r⟩ := e
  cases r with
  | scalar u =>
    intro v hv
    rw [scalars]
    split
    · exact hv
    · exact List.mem_append_left _ hv
  | array | released | located | refused => exact fun v hv => hv

theorem mem_scalars_cons (q : Request) (v : Var) (h : History) :
    v ∈ scalars ((q, .scalar v) :: h) := by
  unfold scalars
  split
  · assumption
  · simp

theorem onLoan_subset (h : History) : h.onLoan ⊆ h.scalars := by
  induction h using onLoan.induct with
  | case1 => exact nofun
  | case2 w v h ih =>
    intro u hu
    obtain rfl | hu := List.mem_cons.1 hu
    · exact mem_scalars_cons ..
    · exact scalars_subset_cons _ _ (ih hu)
  | case3 v r h ih => exact fun u hu => scalars_subset_cons _ _ (ih (List.mem_of_mem_erase hu))
  | case4 e h hnew hback ih =>
    rw [onLoan.eq_4 e h hnew hback]
    exact fun u hu => scalars_subset_cons _ _ (ih hu)

theorem declared_subset (h : History) : h.declared ⊆ h.scalars := by
  induction h using declared.induct with
  | case1 => exact nofun
  | case2 name w block v h ih =>
    intro u hu
    obtain rfl | hu := List.mem_cons.1 hu
    · exact mem_scalars_cons ..
    · exact scalars_subset_cons _ _ (ih hu)
  | case3 e h hnew ih =>
    rw [declared.eq_3 e h hnew]
    exact fun u hu => scalars_subset_cons _ _ (ih hu)

end History

/-- The allocator after a history, in which every request was fair when it was made. -/
inductive Allocator.After (Fair : History → Request → Prop) : History → Allocator → Prop
  | new : After Fair [] {}
  | served {h : History} {a : Allocator} {q : Request} (before : After Fair h a) (fair : Fair h q) :
      After Fair ((q, (a.serve q).1) :: h) (a.serve q).2

theorem Allocator.After.mono {Fair Fair' : History → Request → Prop} {h : History} {a : Allocator}
    (hafter : After Fair h a) (hfair : ∀ h q, Fair h q → Fair' h q) : After Fair' h a := by
  induction hafter with
  | new => exact .new
  | served _ fair ih => exact ih.served (hfair _ _ fair)

/-- What every exchange keeps holds after every history. -/
theorem Allocator.After.induct {Fair : History → Request → Prop} {h : History} {a : Allocator}
    (hafter : After Fair h a) (P : History → Allocator → Prop) (new : P [] {})
    (step : ∀ {h a q r a'}, P h a → Fair h q → Exchange a q r a' → P ((q, r) :: h) a') : P h a := by
  induction hafter with
  | new => exact new
  | served _ fair ih => exact step ih fair (Allocator.exchange_serve _ _)

/-- The pools hold the temporaries that wait. -/
theorem Allocator.After.pools_eq {Fair : History → Request → Prop} {h : History} {a : Allocator}
    (hafter : After Fair h a) : ∀ w, a.pools.get w = h.waiting w := by
  refine hafter.induct (fun h a => ∀ w, a.pools.get w = h.waiting w)
    (fun w => by cases w <;> rfl) fun {h a q r a'} ih _ he w => ?_
  cases he with
  | scalar | noScalar | array | noArray | noTemporary | kept | located => exact ih w
  | @reused w' v rest pool =>
    by_cases hw : w' = w
    · subst hw
      simp [History.waiting, ← ih, pool]
    · simpa [History.waiting, hw, Pools.get_set_of_ne _ _ (Ne.symm hw)] using ih w
  | @made w' pool =>
    by_cases hw : w' = w
    · subst hw
      simp [History.waiting, ← ih, push, pool]
    · simpa [History.waiting, hw, push] using ih w
  | @pooled v =>
    by_cases hw : v.width = w
    · subst hw
      simp [History.waiting, ← ih]
    · simpa [History.waiting, hw, Pools.get_set_of_ne _ _ (Ne.symm hw)] using ih w

end NibblePascal
