import Mathlib.Data.List.Pairwise
import NibblePascal.Proofs.Storage.Loans
import NibblePascal.Proofs.Storage.Packed

/-!
# Temporaries are exclusive

As long as temporaries are put back only while they are on loan, no cell belongs to two of the
variables in use.  Every temporary is on loan or in a pool, and not both: that is `Lends`, which
every exchange keeps, `Traded.step`.  Since the scalars are packed, different ones lie apart.
-/

namespace NibblePascal

namespace Allocator

variable {h : History} {a a' : Allocator} {q : Request} {r : Reply} {vs : List Var}

/-- The loans depend on what was given out and on the pools only. -/
theorem Lends.congr (hl : a.Lends vs) (hvars : a'.vars = a.vars) (hfree : a'.free = a.free)
    (hpools : a'.pools = a.pools) : a'.Lends vs where
  perm := by simpa [temporaries, hvars, hpools] using hl.perm
  nodup := by simpa [temporaries, hvars] using hl.nodup
  width := by simpa [hpools] using hl.width
  below := by simpa [hvars, hfree] using hl.below

/-- A temporary is put back only while it is on loan. -/
def ReleasesLoans (h : History) (q : Request) : Prop :=
  ∀ v, q = .release v → v.temp = true → v ∈ h.onLoan

/-- The temporaries given out in a history are on loan or in the pools. -/
structure Traded (h : History) (a : Allocator) : Prop where
  lends : a.Lends h.onLoan
  loans : ∀ v ∈ h.onLoan, v.temp = true
  declared : ∀ v ∈ h.declared, v.temp = false

namespace Traded

theorem new : Traded [] {} := ⟨.empty, nofun, nofun⟩

/-- Nothing is lent where a request is refused. -/
theorem lends_of_refused (ht : Traded h a) {why : Fault} (hq : a.serve q = (.refused why, a')) :
    a'.Lends h.onLoan := by
  have he := a.exchange_serve q
  rw [hq] at he
  obtain ⟨hvars, -, hfree, hpools⟩ := he.refused
  exact ht.lends.congr hvars hfree hpools

/-- Every exchange keeps the books. -/
theorem step (ht : Traded h a) (hfair : ReleasesLoans h q) :
    Traded ((q, (a.serve q).1) :: h) (a.serve q).2 := by
  cases q with
  | scalar name w block =>
    rcases hd : a.defineVar name w block with ⟨why | v, a'⟩
    · have hq : a.serve (.scalar name w block) = (.refused why, a') := by
        simp [serve, hd, Reply.ofScalar]
      rw [hq]
      exact ⟨ht.lends_of_refused hq, ht.loans, ht.declared⟩
    · obtain ⟨hl, hv⟩ := ht.lends.defineVar hd
      have hq : a.serve (.scalar name w block) = (.scalar v, a') := by
        simp [serve, hd, Reply.ofScalar]
      rw [hq]
      exact ⟨hl, ht.loans, List.forall_mem_cons.2 ⟨hv, ht.declared⟩⟩
  | array name w len block =>
    rcases hd : a.defineArray name w len block with ⟨why | r, a'⟩
    · have hq : a.serve (.array name w len block) = (.refused why, a') := by
        simp [serve, hd, Reply.ofArray]
      rw [hq]
      exact ⟨ht.lends_of_refused hq, ht.loans, ht.declared⟩
    · have hq : a.serve (.array name w len block) = (.array r, a') := by
        simp [serve, hd, Reply.ofArray]
      rw [hq]
      exact ⟨ht.lends.defineArray hd, ht.loans, ht.declared⟩
  | temporary w =>
    rcases hd : a.temp w with ⟨why | v, a'⟩
    · have hq : a.serve (.temporary w) = (.refused why, a') := by
        simp [serve, hd, Reply.ofScalar]
      rw [hq]
      exact ⟨ht.lends_of_refused hq, ht.loans, ht.declared⟩
    · obtain ⟨hl, hv⟩ := ht.lends.take hd
      have hq : a.serve (.temporary w) = (.scalar v, a') := by
        simp [serve, hd, Reply.ofScalar]
      rw [hq]
      exact ⟨hl, List.forall_mem_cons.2 ⟨hv, ht.loans⟩, ht.declared⟩
  | release v =>
    refine ⟨?_, fun u hu => ht.loans u (List.mem_of_mem_erase hu), ht.declared⟩
    change (a.release v).Lends (h.onLoan.erase v)
    -- What is no temporary was never on loan, so nothing is put back.
    cases htemp : v.temp with
    | true =>
      exact (ht.lends.rearrange (List.perm_cons_erase (hfair v rfl htemp))).release
    | false =>
      have hnot : v ∉ h.onLoan := fun hv => by simp [ht.loans v hv] at htemp
      rw [List.erase_of_not_mem hnot, release_of_not_temp a htemp]
      exact ht.lends
  | locate pos => exact ⟨ht.lends.locate pos, ht.loans, ht.declared⟩

theorem after (hafter : After ReleasesLoans h a) : Traded h a := by
  induction hafter with
  | new => exact new
  | served _ fair ih => exact ih.step fair

end Traded

/-- The variables in use after a history have their cells for themselves. -/
structure SharesNothing (h : History) (a : Allocator) : Prop where
  loans : h.onLoan.Pairwise Var.Apart
  declared : ∀ t ∈ h.onLoan, ∀ v ∈ h.declared, t.Apart v
  pooled : ∀ t ∈ h.onLoan, ∀ u ∈ a.pools.all, t.Apart u
  /-- A temporary has the width that was asked for. -/
  width : ∀ w v a', a.temp w = (.ok v, a') → v.width = w
  /-- A declared scalar is not taken back. -/
  untouched : ∀ v ∈ h.declared, a.reclaim v = (false, a)

/-- However an allocator was used, as long as temporaries were put back only while they were on
loan, no two temporaries on loan have a cell in common, and none has a cell in common with a
declared scalar or with a temporary in a pool. -/
theorem temporaries_exclusive (hafter : After ReleasesLoans h a) : SharesNothing h a := by
  have ht := Traded.after hafter
  have hgiven : After ReleasesGiven h a := hafter.mono fun h q hq v hv htemp =>
    h.onLoan_subset (hq v hv htemp)
  have hl := Arranged.after hgiven
  -- Scalars that were given out lie apart unless they are the same.
  have hapart : ∀ {u v}, u ∈ h.scalars → v ∈ h.scalars → u ≠ v → u.Apart v := by
    intro u v hu hv hne
    have : Std.Symm Var.Apart := ⟨fun _ _ => .symm⟩
    exact hl.packed.apart.forall hu hv hne
  have hfilter : h.onLoan.filter (·.temp) = h.onLoan := List.filter_eq_self.2 ht.loans
  have hpools : (a.pools.all ++ h.onLoan).Nodup := by
    have := ht.lends.perm.nodup_iff.2 ht.lends.nodup
    rwa [hfilter] at this
  obtain ⟨-, hloans, hdisjoint⟩ := List.nodup_append.1 hpools
  refine ⟨?_, fun t hmem v hv => ?_, fun t hmem u hu => ?_, fun w v a' htemp => ?_, fun v hv => ?_⟩
  · refine hloans.imp_of_mem fun {u v} hu hv hne => ?_
    exact hapart (h.onLoan_subset hu) (h.onLoan_subset hv) hne
  · refine hapart (h.onLoan_subset hmem) (h.declared_subset hv) ?_
    rintro rfl
    exact Bool.noConfusion ((ht.loans t hmem).symm.trans (ht.declared t hv))
  · obtain ⟨w, hu'⟩ := Pools.mem_all.1 hu
    exact hapart (h.onLoan_subset hmem) (hl.pool w u hu') fun heq => hdisjoint u hu t hmem heq.symm
  · have he := a.exchange_serve (.temporary w)
    have hq : a.serve (.temporary w) = (.scalar v, a') := by simp [serve, htemp, Reply.ofScalar]
    rw [hq] at he
    cases he with
    | reused pool => exact ht.lends.width w v (by simp [pool])
    | made => rfl
  · have hv := ht.declared v hv
    rw [reclaim, hv, release_of_not_temp a hv]

/-- Two bytes on loan and a declared nibble, with a third byte in its pool. -/
theorem temporaries_exclusive_reuse : ∃ h a, After ReleasesLoans h a
    ∧ h.onLoan.map Var.addr = [5, 2] ∧ h.declared.map Var.addr = [4] ∧ a.pools.all.map Var.addr = [0]
    ∧ SharesNothing h a := by
  let t : Var := ⟨"$SYS0", .byte, 0, "", true⟩
  let n : Var := ⟨"n", .nibble, 4, "main", false⟩
  have h₁ : After ReleasesLoans _ _ := .served (q := .temporary .byte) .new nofun
  have h₂ := h₁.served (q := .temporary .byte) nofun
  have h₃ := h₂.served (q := .scalar "n" .nibble "main") nofun
  have h₄ := h₃.served (q := .release t) (by rintro _ ⟨⟩ -; decide)
  have h₅ := h₄.served (q := .temporary .byte) nofun
  have h₆ := h₅.served (q := .temporary .byte) nofun
  have h₇ := h₆.served (q := .release t) (by rintro _ ⟨⟩ -; decide)
  have h₈ := h₇.served (q := .release n) (by rintro _ ⟨⟩ hn; cases hn)
  exact ⟨_, _, h₈, by decide, by decide, by decide, temporaries_exclusive h₈⟩

end Allocator

end NibblePascal
