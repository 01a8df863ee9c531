import NibblePascal.Proofs.Generation.Block
import NibblePascal.Proofs.Generation.Edits
import NibblePascal.Proofs.Generation.Labels
import NibblePascal.Proofs.Storage.Ledger

/-!
# Generated programs

Once all calls are known, `dispatch` writes the lines of calls and returns.  The return labels
of a program are different from each other, so the number of a call is the place of its label.

* `Program.coded_of_generate`: the lines of a program are those of its pieces;
* `Program.Coded.closed`: they can be run.
-/

namespace NibblePascal

/-! ### Calls and returns -/

namespace Piece

variable {code : List Piece} {name ret : String} {i : Nat}

theorem mem_calls {c : Call} :
    c ∈ calls code name ↔ code[c.entry]? = some (.call name c.ret) := by
  simp only [calls, List.mem_filterMap, Prod.exists, List.mem_zipIdx_iff_getElem?]
  constructor
  · rintro ⟨piece, i, hpiece, hc⟩
    cases piece with
    | call p ret =>
      simp only [callAt, Option.ite_none_right_eq_some, Option.some.injEq] at hc
      obtain ⟨rfl, rfl⟩ := hc
      exact hpiece
    | line | finish => cases hc
  · intro h
    exact ⟨_, _, h, by simp [callAt]⟩

theorem map_ret_calls (code : List Piece) (name : String) :
    (calls code name).map (·.ret) = returns code name := by
  unfold calls returns
  generalize 0 = n
  induction code generalizing n with
  | nil => rfl
  | cons piece code ih =>
    cases piece with
    | call p ret =>
      by_cases h : p = name <;> simp [List.zipIdx_cons, callAt, h, ih]
    | line | finish => exact ih (n + 1)

/-- The return labels of all calls. -/
def rets (code : List Piece) : List String :=
  code.filterMap fun
    | call _ ret => some ret
    | _ => none

/-- The procedures that end. -/
def finishes (code : List Piece) : List String :=
  code.filterMap fun
    | finish p => some p
    | _ => none

@[simp] theorem rets_append (a b : List Piece) : rets (a ++ b) = rets a ++ rets b :=
  List.filterMap_append

@[simp] theorem rets_ofLines (lines : List Line) : rets (ofLines lines) = [] := by
  simp [rets, ofLines, List.filterMap_map]

@[simp] theorem rets_nil : rets [] = [] := rfl

@[simp] theorem rets_line (l : Line) (code : List Piece) : rets (line l :: code) = rets code := rfl

@[simp] theorem rets_finish (p : String) (code : List Piece) :
    rets (finish p :: code) = rets code := rfl

@[simp] theorem finishes_append (a b : List Piece) :
    finishes (a ++ b) = finishes a ++ finishes b := List.filterMap_append

@[simp] theorem finishes_line (l : Line) (code : List Piece) :
    finishes (line l :: code) = finishes code := rfl

@[simp] theorem finishes_finish (p : String) (code : List Piece) :
    finishes (finish p :: code) = p :: finishes code := rfl

theorem returns_sublist (code : List Piece) (name : String) :
    (returns code name).Sublist (rets code) := by
  unfold returns rets
  induction code with
  | nil => exact List.Sublist.refl _
  | cons piece code ih =>
    cases piece with
    | call p ret =>
      by_cases h : p = name
      · simpa [h] using ih
      · simpa [h] using ih.cons _
    | line | finish => simpa using ih

/-- A procedure ends at one line only. -/
theorem eq_of_finish (hnd : (finishes code).Nodup) {j : Nat}
    (hi : code[i]? = some (.finish name)) (hj : code[j]? = some (.finish name)) : i = j := by
  induction code generalizing i j with
  | nil => cases hi
  | cons piece code ih =>
    have hnot : ∀ {k : Nat}, piece = .finish name → code[k]? ≠ some (.finish name) := by
      rintro k rfl hk
      rw [finishes_finish, List.nodup_cons] at hnd
      exact hnd.1 (List.mem_filterMap.2 ⟨_, List.mem_of_getElem? hk, rfl⟩)
    have hrest : (finishes code).Nodup := hnd.sublist (List.Sublist.filterMap _ (List.sublist_cons_self ..))
    cases i with
    | zero =>
      cases j with
      | zero => rfl
      | succ j => exact absurd hj (hnot (Option.some.inj hi))
    | succ i =>
      cases j with
      | zero => exact absurd hi (hnot (Option.some.inj hj))
      | succ j => rw [ih hrest hi hj]

theorem getElem?_of_finish? (h : finish? code name = some i) : code[i]? = some (.finish name) := by
  have hmem := List.mem_of_getLast? h
  simp only [List.mem_filterMap, Prod.exists, List.mem_zipIdx_iff_getElem?] at hmem
  obtain ⟨piece, j, hpiece, hf⟩ := hmem
  cases piece with
  | finish p =>
    simp only [finishAt, Option.ite_none_right_eq_some, Option.some.injEq] at hf
    obtain ⟨rfl, rfl⟩ := hf
    exact hpiece
  | line | call => cases hf

end Piece

namespace Piece

/-- Every return label is among the labels of the code, in the order of the calls. -/
def Returnable (code : List Piece) : Prop := (rets code).Sublist (labelNames (code.map plain))

theorem Returnable.nil : Returnable [] := List.Sublist.refl _

theorem Returnable.append {a b : List Piece} (ha : Returnable a) (hb : Returnable b) :
    Returnable (a ++ b) := by
  rw [Returnable, rets_append, List.map_append, labelNames_append]
  exact List.Sublist.append ha hb

theorem Returnable.line {code : List Piece} (h : Returnable code) (l : Line) :
    Returnable (line l :: code) := by
  refine List.Sublist.trans h ?_
  exact List.Sublist.filterMap _ (List.sublist_cons_self ..)

theorem Returnable.finish {code : List Piece} (h : Returnable code) (p : String) :
    Returnable (finish p :: code) := h

theorem returnable_ofLines (lines : List Line) : Returnable (ofLines lines) := by
  rw [Returnable, rets_ofLines]
  exact List.nil_sublist _

end Piece

open Piece in
/-- The label behind a call is a label of the code. -/
theorem Stmt.Coded.returnable {sc : Scope} {s s' : Stock} {st : Stmt} {code : List Piece}
    (h : Stmt.Coded sc s st code s') : Returnable code := by
  have hline : ∀ l, Returnable [.line l] := fun l => Returnable.nil.line l
  induction h with
  | call => exact List.Sublist.refl _
  | skip => exact Returnable.nil
  | nop => exact hline _
  | seq _ _ ihf ihr => exact ihf.append ihr
  | block _ ih => exact ih
  | ifThen _ _ ih => exact (returnable_ofLines _).append ((ih.append (hline _)).line _)
  | ifElse _ _ _ ihy ihn =>
    exact (returnable_ofLines _).append ((ihy.append (((ihn.append (hline _)).line _).line _)).line _)
  | whileDo _ _ ih =>
    exact ((returnable_ofLines _).append ((ih.append ((hline _).line _)).line _)).line _
  | repeatUntil _ _ ih => exact (ih.append ((returnable_ofLines _).append (hline _))).line _
  | forDo _ _ _ _ _ _ ih =>
    refine (returnable_ofLines _).append (.append (.line ?_ _) (returnable_ofLines _))
    refine (returnable_ofLines _).append ((ih.append ?_).line _)
    exact (returnable_ofLines _).append (((returnable_ofLines _).append ((hline _).line _)).line _)
  | assign | setElement | fillList | fillText | copyArray | asm | step | output | input =>
    exact returnable_ofLines _

/-! ### The return labels of blocks -/

/-- The return labels are numbered labels from `lo` to below `hi`, all different. -/
def Piece.Numbered (lo hi : Nat) (code : List Piece) : Prop :=
  ∃ ns : List Nat, Piece.rets code = ns.map Code.labelName ∧ ns.Nodup ∧ ∀ k ∈ ns, lo ≤ k ∧ k < hi

namespace Piece.Numbered

variable {lo mid hi : Nat} {a b code : List Piece}

theorem of_rets_eq_nil (h : rets code = []) : Numbered lo hi code := ⟨[], h, .nil, nofun⟩

theorem ofLines (lines : List Line) : Numbered lo hi (ofLines lines) :=
  of_rets_eq_nil (rets_ofLines lines)

theorem append (ha : Numbered lo mid a) (hb : Numbered mid hi b) (hlo : lo ≤ mid)
    (hhi : mid ≤ hi) : Numbered lo hi (a ++ b) := by
  obtain ⟨ns, hns, hnd, hr⟩ := ha
  obtain ⟨ms, hms, hmd, hs⟩ := hb
  refine ⟨ns ++ ms, by simp [hns, hms], ?_, by grind⟩
  rw [List.nodup_append]
  grind

theorem mono {lo' hi' : Nat} (h : Numbered lo hi code) (hlo : lo' ≤ lo) (hhi : hi ≤ hi') :
    Numbered lo' hi' code := by
  obtain ⟨ns, hns, hnd, hr⟩ := h
  exact ⟨ns, hns, hnd, fun k hk => ⟨hlo.trans (hr k hk).1, (hr k hk).2.trans_le hhi⟩⟩

theorem of_rets_eq (h : Numbered lo hi a) (heq : rets b = rets a) : Numbered lo hi b := by
  unfold Numbered
  rw [heq]
  exact h

end Piece.Numbered

theorem Stmt.Coded.labels_le {sc : Scope} {s s' : Stock} {st : Stmt} {code : List Piece}
    (h : Stmt.Coded sc s st code s') : s.labels ≤ s'.labels :=
  h.upholds (Ledger.labels sc s.labels) le_rfl

theorem Cond.Coded.labels_le {sc : Scope} {chain : Option Chain} {s s' : Stock} {c : Cond}
    {test : List TestLine} (h : Cond.Coded sc chain s c test s') : s.labels ≤ s'.labels :=
  h.upholds (Ledger.labels sc s.labels) le_rfl

open Piece in
theorem Stmt.Coded.numbered {sc : Scope} {s s' : Stock} {st : Stmt} {code : List Piece}
    (h : Stmt.Coded sc s st code s') : Numbered s.labels s'.labels code := by
  induction h with
  | @call s p _ => exact ⟨[s.labels], rfl, by simp, by simp⟩
  | skip | nop => exact .of_rets_eq_nil rfl
  | seq hf hr ihf ihr => exact ihf.append ihr hf.labels_le hr.labels_le
  | block _ ih => exact ih
  | ifThen hc _ ih =>
    have := hc.labels_le
    exact (ih.mono (by simp at this; omega) le_rfl).of_rets_eq (by simp [Piece.ifThen, test, mark])
  | ifElse hc hy hn ihy ihn =>
    have := hc.labels_le
    refine ((ihy.append ihn hy.labels_le hn.labels_le).mono (by simp at this; omega)
      le_rfl).of_rets_eq (by simp [Piece.ifElse, test, mark, goto])
  | whileDo hc _ ih =>
    have := hc.labels_le
    exact (ih.mono (by simp at this; omega) le_rfl).of_rets_eq
      (by simp [Piece.whileDo, test, mark, goto])
  | repeatUntil _ hc ih =>
    exact (ih.mono (by simp) hc.labels_le).of_rets_eq (by simp [Piece.repeatUntil, test, mark])
  | forDo _ hf hl ht _ _ ih =>
    have hle := (Ledger.labels sc _).upholds_limit hf hl ht le_rfl
    exact (ih.mono (by simp at hle ⊢; omega) (by simp)).of_rets_eq
      (by simp [Piece.forLoop, test, mark, goto])
  | assign | setElement | fillList | fillText | copyArray | asm | step | output | input =>
    exact .ofLines _

theorem Block.Coded.numbered {label name : String} {o o' : Outline} {b : Block}
    {code : List Piece} (h : Block.Coded label name o b code o') :
    o.stock.labels ≤ o'.stock.labels
      ∧ Piece.Numbered o.stock.labels o'.stock.labels code := by
  induction h with
  | code h => exact ⟨h.labels_le, h.numbered.of_rets_eq (by simp)⟩
  | scalar _ _ _ ih | array _ _ _ ih => exact ih
  | procedure _ _ _ _ _ ihb ihr =>
    exact ⟨ihb.1.trans ihr.1, (ihb.2.append ihr.2 ihb.1 ihr.1).of_rets_eq (by simp)⟩

/-! ### The labels of blocks -/

theorem Gen.procedureLabel_injective : Function.Injective Gen.procedureLabel := by
  intro a b h
  have := congrArg String.toList h
  exact String.toList_injective (by simpa [procedureLabel] using this)

/-- The names of the labels of programs come in kinds that have no name in common. -/
theorem Gen.procedureLabel_ne_labelName (p : String) (n : Nat) :
    procedureLabel p ≠ Code.labelName n := by
  intro h
  have := congrArg String.toList h
  simp [procedureLabel, Code.labelName] at this

theorem Gen.procedureLabel_ne_main (p : String) : procedureLabel p ≠ "@main" := by
  intro h
  have := congrArg String.toList h
  simp [procedureLabel] at this

theorem Code.labelName_ne_main (n : Nat) : labelName n ≠ "@main" := by
  intro h
  have := congrArg String.toList h
  simp [labelName] at this

/-- The labels of the code of a block: its own, those of its procedures and numbered ones. -/
structure Block.Labels (label : String) (o o' : Outline) (code : List Piece) : Prop where
  le : o.stock.labels ≤ o'.stock.labels
  names : ∃ (ns : List Nat) (hs : List Heading), o'.headings = o.headings ++ hs
    ∧ (labelNames (code.map Piece.plain)).Perm
      (label :: (ns.map Code.labelName ++ hs.map fun q => Gen.procedureLabel q.name))
    ∧ ns.Nodup ∧ ∀ k ∈ ns, o.stock.labels ≤ k ∧ k < o'.stock.labels
  closed : ∀ t ∈ jumpTargets (code.map Piece.plain), t ∈ labelNames (code.map Piece.plain)
    ∨ ∃ q ∈ o'.headings, t = Gen.procedureLabel q.name
  noRaw : NoRaw (code.map Piece.plain)

/-- The body of a procedure, its end, and the rest of the block. -/
theorem Block.Labels.procedure {label : String} {o o₁ o₂ : Outline} {sc : Scope}
    {memory : Allocator} {q : Heading} {code₁ code₂ : List Piece}
    (h₁ : Block.Labels (Gen.procedureLabel q.name) (o.openBody sc memory q) o₁ code₁)
    (h₂ : Block.Labels label o₁.leave o₂ code₂) (hpre : o₁.headings <+: o₂.headings) :
    Block.Labels label o o₂ (code₁ ++ (.finish q.name :: .line (.endProc q.name) :: code₂)) := by
  have hlines : (code₁ ++ (.finish q.name :: .line (.endProc q.name) :: code₂)).map Piece.plain =
      code₁.map Piece.plain ++ ([.inst .nop, .endProc q.name] ++ code₂.map Piece.plain) := by
    simp [Piece.plain]
  have hnames : labelNames [.inst .nop, .endProc q.name] = [] := rfl
  have htargets : jumpTargets [.inst .nop, .endProc q.name] = [] := rfl
  refine ⟨h₁.le.trans h₂.le, ?_, ?_, ?_⟩
  · obtain ⟨ns₁, hs₁, hh₁, hp₁, hnd₁, hr₁⟩ := h₁.names
    obtain ⟨ns₂, hs₂, hh₂, hp₂, hnd₂, hr₂⟩ := h₂.names
    have hle₁ := h₁.le
    have hle₂ := h₂.le
    simp only [Outline.openBody, Outline.leave] at hr₁ hr₂ hle₁ hle₂ hh₁ hh₂
    refine ⟨ns₁ ++ ns₂, q :: (hs₁ ++ hs₂), by simp [hh₂, hh₁], ?_, ?_, by grind⟩
    · rw [hlines, labelNames_append, labelNames_append, hnames, List.nil_append]
      refine (hp₁.append hp₂).trans (List.perm_iff_count.2 fun x => ?_)
      simp only [List.count_append, List.count_cons, List.map_append, List.map_cons]
      omega
    · rw [List.nodup_append]
      grind
  · intro t ht
    rw [hlines, jumpTargets_append, jumpTargets_append, htargets, List.nil_append,
      List.mem_append] at ht
    rw [hlines, labelNames_append, labelNames_append, hnames, List.nil_append, List.mem_append]
    rcases ht with ht | ht
    · obtain hlabel | ⟨r, hr, hcall⟩ := h₁.closed t ht
      · exact .inl (.inl hlabel)
      · exact .inr ⟨r, hpre.subset hr, hcall⟩
    · exact (h₂.closed t ht).imp_left .inr
  · rw [hlines]
    exact NoRaw.append.2 ⟨h₁.noRaw, NoRaw.append.2 ⟨by simp [Image.isRaw], h₂.noRaw⟩⟩

namespace Block.Coded

variable {label name : String} {o o' : Outline} {b : Block} {code code' : List Piece}

theorem returnable (h : Block.Coded label name o b code o') : Piece.Returnable code := by
  induction h with
  | code h => exact h.returnable.line _
  | scalar _ _ _ ih | array _ _ _ ih => exact ih
  | procedure _ _ _ _ _ ihb ihr => exact ihb.append ((ihr.line _).finish _)

/-- The procedures that end in a block are those declared in it. -/
theorem finishes_perm (h : Block.Coded label name o b code o') :
    ∃ hs : List Heading, o'.headings = o.headings ++ hs
      ∧ (Piece.finishes code).Perm (hs.map (·.name)) := by
  induction h with
  | code h =>
    refine ⟨[], by simp, ?_⟩
    have hnone : Piece.finishes _ = [] := List.filterMap_eq_nil_iff.2 fun piece hp => by
      cases piece with
      | finish p => exact (h.not_finish p hp).elim
      | line | call => rfl
    simp [hnone]
  | scalar _ _ _ ih | array _ _ _ ih => exact ih
  | @procedure _ _ o o₁ o₂ p _ _ code₁ code₂ selector _ _ _ _ _ _ _ ihb ihr =>
    obtain ⟨hs₁, h₁, hp₁⟩ := ihb
    obtain ⟨hs₂, h₂, hp₂⟩ := ihr
    refine ⟨⟨p.text, selector, p.pos⟩ :: (hs₁ ++ hs₂), ?_, ?_⟩
    · rw [h₂, Outline.leave, h₁]
      simp [Outline.openBody]
    · rw [Piece.finishes_append, Piece.finishes_finish, Piece.finishes_line, List.map_cons,
        List.map_append]
      exact List.perm_middle.trans (.cons _ (hp₁.append hp₂))

theorem labels (h : Block.Coded label name o b code o') (hb : b.asmFree = true)
    (ho : o.Sound code') : Block.Labels label o o' code := by
  induction h generalizing code' with
  | @code label name o st code s' h =>
    obtain ⟨hle, hl⟩ := h.labelled hb (fun t => ∃ q ∈ o.headings, t = Gen.procedureLabel q.name)
      (fun p hp => by
        obtain ⟨q, hq, rfl⟩ := List.mem_map.1 (ho.known hp)
        exact ⟨q, hq, rfl⟩)
    obtain ⟨ns, hns, hnd, hrange⟩ := hl.numbers
    refine ⟨hle, ⟨ns, [], by simp, ?_, hnd, hrange⟩, ?_, ?_⟩
    · simp [Piece.plain, hns]
    · intro t ht
      exact (hl.closed t (by simpa [Piece.plain] using ht)).imp_left fun h => by
        simp [Piece.plain, h]
    · simpa [Piece.plain, Image.isRaw] using hl.noRaw
  | scalar _ hs _ ih | array _ hs _ ih =>
    obtain ⟨hle, hn, hc, hr⟩ := ih hb (ho.declare hs)
    exact ⟨hle, hn, hc, hr⟩
  | @procedure _ _ o o₁ o₂ p _ _ code₁ code₂ selector memory sc hn hs _ hbody hr ihb ihr =>
    obtain ⟨hb₁, hb₂⟩ := Bool.and_eq_true_iff.1 hb
    have hopen : (o.openBody sc memory ⟨p.text, selector, p.pos⟩).Sound code' := ho.openBody _ hn hs
    have hq : ⟨p.text, selector, p.pos⟩ ∈ o₁.headings :=
      hbody.headings_prefix.subset (by simp [Outline.openBody])
    exact .procedure (q := ⟨p.text, selector, p.pos⟩) (ihb hb₁ hopen)
      (ihr hb₂ ((hbody.sound hopen).closeBody (List.mem_map_of_mem hq))) hr.headings_prefix

end Block.Coded

/-! ### Dispatch -/

namespace Outline

variable {o : Outline} {code : List Piece}

theorem selector_eq (hd : o.Distinct) {q : Heading} (hq : q ∈ o.headings) :
    o.selector q.name = q.selector := by
  cases hf : o.headings.find? (·.name == q.name) with
  | none => exact absurd (List.find?_eq_none.1 hf q hq) (by simp)
  | some r =>
    have hr : r = q := hd.eq_of_name_eq (List.mem_of_find?_eq_some hf) hq
      (by simpa using List.find?_some hf)
    simp [selector, hf, hr]

/-- An edit writes the return of a procedure that is called, or the number of a call. -/
def IsEdit (o : Outline) (code : List Piece) (id : EntryId) (edit : Edit) : Prop :=
  ∃ q ∈ o.headings, Piece.calls code q.name ≠ []
    ∧ ((Piece.finish? code q.name = some id
        ∧ edit = .replace (Code.returnDispatch q.selector (Piece.returns code q.name)))
      ∨ (1 < (Piece.returns code q.name).length ∧ ∃ (k : Nat) (c : Call),
        (Piece.calls code q.name)[k]? = some c ∧ id = c.entry
        ∧ edit = .insertBefore (Code.selectCall q.selector k)))

theorem mem_edits {edits : List (List (EntryId × Edit))}
    (h : (o.headings.map (·.procedure code)).mapM Gen.returnEdits = .ok edits)
    {id : EntryId} {edit : Edit} : (id, edit) ∈ edits.flatten ↔ o.IsEdit code id edit := by
  have hmany : ∀ q : Heading, 1 < (Piece.returns code q.name).length ↔
      1 < (q.procedure code).calls.length := by
    intro q
    rw [← Piece.map_ret_calls, List.length_map]
    rfl
  rw [Gen.mem_edits h]
  constructor
  · rintro ⟨p, hp, hedit⟩
    obtain ⟨q, hq, rfl⟩ := List.mem_map.1 hp
    obtain ⟨hc, hf, rfl⟩ | @⟨k, c, hlt, hk, rfl, rfl⟩ := hedit
    · exact ⟨q, hq, hc, .inl ⟨hf, by rw [← Piece.map_ret_calls]; rfl⟩⟩
    · exact ⟨q, hq, List.ne_nil_of_mem (List.mem_of_getElem? hk),
        .inr ⟨(hmany q).2 hlt, k, c, hk, rfl, rfl⟩⟩
  · rintro ⟨q, hq, hc, hedit⟩
    refine ⟨_, List.mem_map_of_mem hq, ?_⟩
    rcases hedit with ⟨hf, rfl⟩ | ⟨hlt, k, c, hk, rfl, rfl⟩
    · exact .finish hc hf (by rw [← Piece.map_ret_calls]; rfl)
    · exact .call ((hmany q).1 hlt) hk rfl rfl

/-- The number of a call is the place of its return label. -/
theorem idxOf_ret (hrets : (Piece.rets code).Nodup) {name : String} {k : Nat} {c : Call}
    (hk : (Piece.calls code name)[k]? = some c) : (Piece.returns code name).idxOf c.ret = k := by
  have hnd := hrets.sublist (Piece.returns_sublist code name)
  have hget : (Piece.returns code name)[k]? = some c.ret := by
    rw [← Piece.map_ret_calls, List.getElem?_map, hk]
    rfl
  obtain ⟨hlt, heq⟩ := List.getElem?_eq_some_iff.1 hget
  rw [← heq]
  exact hnd.idxOf_getElem k hlt

/-- What becomes of a line by the edits. -/
theorem afterEdit_eq (ho : o.Sound code) (hrets : (Piece.rets code).Nodup)
    (hfinish : (Piece.finishes code).Nodup) {edits : List (List (EntryId × Edit))}
    (h : (o.headings.map (·.procedure code)).mapM Gen.returnEdits = .ok edits) {i : Nat}
    {piece : Piece} (hi : code[i]? = some piece) :
    Sequence.afterEdit (Sequence.editOf? edits.flatten i) piece.plain =
      piece.expand o.selector (Piece.returns code) := by
  cases piece with
  | line l =>
    rw [Sequence.editOf?_eq_none]
    · rfl
    rintro ⟨id, edit⟩ hmem rfl
    obtain ⟨q, -, -, ⟨hf, -⟩ | ⟨-, k, c, hk, rfl, -⟩⟩ := (mem_edits h).1 hmem
    · cases hi.symm.trans (Piece.getElem?_of_finish? hf)
    · cases hi.symm.trans (Piece.mem_calls.1 (List.mem_of_getElem? hk))
  | call p ret =>
    obtain ⟨q, hq, rfl⟩ := List.mem_map.1 (ho.called (List.mem_of_getElem? hi))
    have hmem : ⟨i, ret⟩ ∈ Piece.calls code q.name := Piece.mem_calls.2 hi
    -- Every edit of this line is the selection of this call.
    have hedit : ∀ edit, o.IsEdit code i edit → 1 < (Piece.returns code q.name).length
        ∧ edit = .insertBefore (Code.selectCall q.selector
          ((Piece.returns code q.name).idxOf ret)) := by
      rintro edit ⟨r, hr, -, ⟨hf, -⟩ | ⟨hlt, k, c, hk, rfl, rfl⟩⟩
      · cases hi.symm.trans (Piece.getElem?_of_finish? hf)
      · have hpiece := hi.symm.trans (Piece.mem_calls.1 (List.mem_of_getElem? hk))
        rw [Option.some.injEq, Piece.call.injEq] at hpiece
        obtain rfl := ho.distinct.eq_of_name_eq hq hr hpiece.1
        rw [hpiece.2, idxOf_ret hrets hk]
        exact ⟨hlt, rfl⟩
    rw [Piece.expand, selector_eq ho.distinct hq]
    split
    case isTrue hlt =>
      obtain ⟨k, hk⟩ := List.getElem?_of_mem hmem
      have hin : o.IsEdit code i (.insertBefore (Code.selectCall q.selector k)) :=
        ⟨q, hq, List.ne_nil_of_mem hmem, .inr ⟨hlt, k, _, hk, rfl, rfl⟩⟩
      rw [Sequence.editOf?_eq_some ((mem_edits h).2 hin)]
      · rw [(hedit _ hin).2]
        rfl
      · rintro ⟨id, edit⟩ he rfl
        rw [(hedit _ ((mem_edits h).1 he)).2, (hedit _ hin).2]
    case isFalse hlt =>
      rw [Sequence.editOf?_eq_none]
      · rfl
      rintro ⟨id, edit⟩ he rfl
      exact hlt (hedit _ ((mem_edits h).1 he)).1
  | finish p =>
    obtain ⟨q, hq, rfl⟩ := List.mem_map.1 (ho.ended (List.mem_of_getElem? hi))
    have hempty : Piece.returns code q.name = [] ↔ Piece.calls code q.name = [] := by
      rw [← Piece.map_ret_calls, List.map_eq_nil_iff]
    have hedit : ∀ edit, o.IsEdit code i edit → Piece.calls code q.name ≠ []
        ∧ edit = .replace (Code.returnDispatch q.selector (Piece.returns code q.name)) := by
      rintro edit ⟨r, hr, hc, ⟨hf, rfl⟩ | ⟨hlt, k, c, hk, rfl, rfl⟩⟩
      · have hpiece := hi.symm.trans (Piece.getElem?_of_finish? hf)
        rw [Option.some.injEq, Piece.finish.injEq] at hpiece
        obtain rfl := ho.distinct.eq_of_name_eq hq hr hpiece
        exact ⟨hc, rfl⟩
      · cases hi.symm.trans (Piece.mem_calls.1 (List.mem_of_getElem? hk))
    rw [Piece.expand, selector_eq ho.distinct hq]
    by_cases hc : Piece.calls code q.name = []
    · rw [Sequence.editOf?_eq_none]
      · rw [hempty.2 hc]
        rfl
      rintro ⟨id, edit⟩ he rfl
      exact (hedit _ ((mem_edits h).1 he)).1 hc
    · obtain ⟨es, hes, heq⟩ := (mem_of_mapM_ok h).1 _ (List.mem_map_of_mem hq)
      obtain ⟨hnil, -⟩ | ⟨-, finish, hf, -⟩ := Gen.of_returnEdits heq
      · exact absurd hnil hc
      obtain rfl := Piece.eq_of_finish hfinish hi (Piece.getElem?_of_finish? hf)
      have hin : o.IsEdit code i (.replace (Code.returnDispatch q.selector
          (Piece.returns code q.name))) := ⟨q, hq, hc, .inl ⟨hf, rfl⟩⟩
      rw [Sequence.editOf?_eq_some ((mem_edits h).2 hin)]
      · have hne : (Piece.returns code q.name).isEmpty = false := by simpa [hempty] using hc
        rw [hne]
        simp [Sequence.afterEdit, Edit.lines, Edit.keeps]
      · rintro ⟨id, edit⟩ he rfl
        exact (hedit _ ((mem_edits h).1 he)).2

/-- The lines once calls return. -/
theorem lines_of_dispatch (ho : o.Sound code) (hrets : (Piece.rets code).Nodup)
    (hfinish : (Piece.finishes code).Nodup) {u : Unit} {g' : Generator}
    (h : Gen.dispatch (o.generator code) = .ok u g') :
    (∀ q ∈ o.headings, (Piece.returns code q.name).length ≤ Code.maxCalls)
      ∧ g'.code.lines = o.lines code ∧ g'.memory = o.stock.memory := by
  obtain ⟨_, _, hget, h⟩ := Gen.of_bind h
  cases hget
  have hprocs : (o.generator code).procedures = o.headings.map (·.procedure code) := rfl
  cases hfind : (o.generator code).procedures.find? fun p => decide (Code.maxCalls < p.calls.length) with
  | some p =>
    simp only [hfind] at h
    exact (Gen.not_fail h).elim
  | none =>
    simp only [hfind] at h
    obtain ⟨seq, hseq, rfl⟩ := Gen.of_updateCode h
    cases hedits : (o.generator code).procedures.mapM Gen.returnEdits with
    | error why =>
      rw [hedits] at hseq
      cases hseq
    | ok edits =>
      rw [hedits] at hseq
      refine ⟨?_, ?_, rfl⟩
      · intro q hq
        have := List.find?_eq_none.1 hfind (q.procedure code) (List.mem_map_of_mem hq)
        rw [← Piece.map_ret_calls, List.length_map]
        exact Nat.le_of_not_lt fun hlt => this (decide_eq_true hlt)
      · have hsplice : (Sequence.ofLines (code.map Piece.plain)).splice edits.flatten = .ok seq := hseq
        rw [Sequence.lines_splice hsplice, List.zipIdx_map, List.flatMap_map, Outline.lines]
        nth_rewrite 3 [← List.zipIdx_map_fst 0 code]
        rw [List.flatMap_map]
        refine List.flatMap_congr fun ⟨piece, i⟩ hmem => ?_
        exact afterEdit_eq ho hrets hfinish hedits (List.mem_zipIdx_iff_getElem?.1 hmem)

end Outline

/-! ### Programs -/

/-- The outline before the block of a program. -/
def Outline.start : Outline := ⟨Scope.enter {}, [], ⟨{}, 0⟩⟩

/-- The pieces of a program: the prologue and the code of its block. -/
def Program.pieces (code : List Piece) : List Piece := Piece.ofLines Code.prologue ++ code

/-- The code of a program without inline assembly. -/
structure Program.Coded (p : Program) (code : List Piece) (o : Outline) : Prop where
  asmFree : p.block.asmFree = true
  block : Block.Coded "@main" "main" .start p.block code o
  close : p.close = .passed
  calls : ∀ q ∈ o.headings, (Piece.returns (Program.pieces code) q.name).length ≤ Code.maxCalls

namespace Program

variable {p : Program} {b : Block} {code : List Piece} {o : Outline}

theorem start_sound : Outline.start.Sound (Piece.ofLines Code.prologue) where
  distinct := List.nodup_nil
  known := by simp [Outline.start, Scope.hasProcedure, Scope.enter]
  called := by simp [Piece.ofLines]
  ended := by simp [Piece.ofLines]

/-- All labels of a program are different. -/
theorem nodup_labels (h : Block.Coded "@main" "main" .start b code o) (hb : b.asmFree = true) :
    (labelNames ((pieces code).map Piece.plain)).Nodup := by
  obtain ⟨ns, hs, hheadings, hperm, hnd, -⟩ := (h.labels hb start_sound).names
  have hdistinct := (h.sound start_sound).distinct
  have hprologue : labelNames Code.prologue = [] := rfl
  rw [pieces, List.map_append, Piece.map_plain_ofLines, labelNames_append, hprologue,
    List.nil_append, hperm.nodup_iff, List.nodup_cons, List.nodup_append]
  have hprocs : (hs.map fun q => Gen.procedureLabel q.name).Nodup := by
    have hnames : (hs.map (·.name)).Nodup := by
      simpa [Outline.Distinct, hheadings, Outline.start] using hdistinct
    have := hnames.map Gen.procedureLabel_injective
    rwa [List.map_map] at this
  refine ⟨?_, hnd.map Code.labelName_injective, hprocs, ?_⟩
  · simp only [List.mem_append, List.mem_map, not_or, not_exists, not_and]
    exact ⟨fun k _ => Code.labelName_ne_main k, fun q _ => Gen.procedureLabel_ne_main q.name⟩
  · intro a ha b hb
    obtain ⟨k, -, rfl⟩ := List.mem_map.1 ha
    obtain ⟨q, -, rfl⟩ := List.mem_map.1 hb
    exact (Gen.procedureLabel_ne_labelName q.name k).symm

/-- The return labels of a program are different. -/
theorem nodup_rets (h : Block.Coded "@main" "main" .start b code o) :
    (Piece.rets (pieces code)).Nodup := by
  obtain ⟨ns, hns, hnd, -⟩ := h.numbered.2
  rw [pieces, Piece.rets_append, Piece.rets_ofLines, List.nil_append, hns]
  exact hnd.map Code.labelName_injective

/-- Every procedure of a program ends once. -/
theorem nodup_finishes (h : Block.Coded "@main" "main" .start b code o) :
    (Piece.finishes (pieces code)).Nodup := by
  obtain ⟨hs, hheadings, hperm⟩ := h.finishes_perm
  have hdistinct := (h.sound start_sound).distinct
  have hnone : Piece.finishes (Piece.ofLines Code.prologue) = [] := rfl
  rw [pieces, Piece.finishes_append, hnone, List.nil_append, hperm.nodup_iff]
  simpa [Outline.Distinct, hheadings, Outline.start] using hdistinct

/-- The lines of a program. -/
theorem lines_of_generate {u : Unit} {g' : Generator} (h : p.generate {} = .ok u g') :
    ∃ code o, Block.Coded "@main" "main" .start p.block code o ∧ p.close = .passed
      ∧ (∀ q ∈ o.headings, (Piece.returns (pieces code) q.name).length ≤ Code.maxCalls)
      ∧ g'.code.lines = o.lines (pieces code) ∧ g'.memory = o.stock.memory := by
  obtain ⟨_, _, rfl, h⟩ := Gen.after Gen.of_emit h
  obtain ⟨_, _, ⟨_, _, hblock, rfl⟩, h⟩ := Gen.after Gen.of_inScope h
  obtain ⟨code, o, hcode, rfl⟩ := Block.coded_of_generate start_sound hblock
  obtain ⟨_, _, ⟨hclose, rfl⟩, h⟩ := Gen.after Gen.of_pass h
  obtain ⟨hcalls, hlines, hmemory⟩ := Outline.lines_of_dispatch (o := o.leave)
    (hcode.sound start_sound).leave (nodup_rets hcode) (nodup_finishes hcode) h
  exact ⟨code, o, hcode, hclose, hcalls, hlines, hmemory⟩

/-- A program without inline assembly has its code. -/
theorem coded_of_generate (hp : p.block.asmFree = true) {u : Unit} {g' : Generator}
    (h : p.generate {} = .ok u g') :
    ∃ code o, p.Coded code o ∧ g'.code.lines = o.lines (pieces code)
      ∧ g'.memory = o.stock.memory := by
  obtain ⟨code, o, hcode, hclose, hcalls, hlines, hmemory⟩ := lines_of_generate h
  exact ⟨code, o, ⟨hp, hcode, hclose, hcalls⟩, hlines, hmemory⟩

end Program

/-! ### Images -/

namespace Code

theorem labelNames_returnCascade (labels : List String) : labelNames (returnCascade labels) = [] := by
  fun_induction returnCascade labels <;>
    simp_all [labelNames_cons_straight]

theorem mem_of_returnCascade {labels : List String} {t : String}
    (h : t ∈ jumpTargets (returnCascade labels)) : t ∈ labels := by
  fun_induction returnCascade labels <;>
    simp_all [jumpTargets_cons_straight]
  all_goals grind

theorem labelNames_returnDispatch (v : Var) (labels : List String) :
    labelNames (returnDispatch v labels) = [] := by
  unfold returnDispatch
  split <;> simp [labelNames_cons_straight, labelNames_returnCascade]

theorem mem_of_returnDispatch {v : Var} {labels : List String} {t : String}
    (h : t ∈ jumpTargets (returnDispatch v labels)) : t ∈ labels := by
  unfold returnDispatch at h
  split at h
  · cases h
  · simpa using h
  · rw [jumpTargets_append, List.mem_append] at h
    rcases h with h | h
    · simp [jumpTargets_cons_straight] at h
      simp [h]
    · exact List.mem_cons_of_mem _ (mem_of_returnCascade h)

theorem noRaw_returnCascade (labels : List String) : NoRaw (returnCascade labels) := by
  fun_induction returnCascade labels <;> simp_all [Line.IsStraight.isRaw_eq]

theorem noRaw_returnDispatch (v : Var) (labels : List String) : NoRaw (returnDispatch v labels) := by
  unfold returnDispatch
  split <;> simp [Line.IsStraight.isRaw_eq, noRaw_returnCascade]

end Code

namespace Piece

variable {selector : String → Var} {labels : String → List String}

theorem labelNames_expand (piece : Piece) :
    labelNames (piece.expand selector labels) = labelNames [piece.plain] := by
  cases piece with
  | line l => rfl
  | call p ret =>
    rw [expand, labelNames_append]
    split <;> simp [plain, AllStraight.labelNames_eq]
  | finish p =>
    rw [expand]
    split
    · rfl
    · rw [Code.labelNames_returnDispatch]
      rfl

theorem mem_jumpTargets_expand {piece : Piece} {t : String}
    (h : t ∈ jumpTargets (piece.expand selector labels)) :
    t ∈ jumpTargets [piece.plain] ∨ ∃ p, t ∈ labels p := by
  cases piece with
  | line l => exact .inl h
  | call p ret =>
    rw [expand, jumpTargets_append, List.mem_append] at h
    refine .inl (h.resolve_left ?_)
    split <;> simp [AllStraight.jumpTargets_eq]
  | finish p =>
    rw [expand] at h
    split at h
    · cases h
    · exact .inr ⟨p, Code.mem_of_returnDispatch h⟩

theorem noRaw_expand {piece : Piece} (h : Image.isRaw piece.plain = false) :
    NoRaw (piece.expand selector labels) := by
  cases piece with
  | line l => simpa [expand, plain] using h
  | call p ret =>
    rw [expand, NoRaw.append]
    exact ⟨by split <;> simp [AllStraight.noRaw], by simp⟩
  | finish p =>
    rw [expand]
    split
    · simp [Image.isRaw]
    · exact Code.noRaw_returnDispatch _ _

end Piece

namespace Outline

variable (o : Outline) (code : List Piece)

theorem labelNames_lines : labelNames (o.lines code) = labelNames (code.map Piece.plain) := by
  unfold lines
  generalize Piece.returns code = labels
  induction code with
  | nil => rfl
  | cons piece code ih =>
    rw [List.flatMap_cons, labelNames_append, ih, Piece.labelNames_expand, List.map_cons,
      ← labelNames_append, List.singleton_append]

variable {o code}

theorem mem_jumpTargets_lines {t : String} (h : t ∈ jumpTargets (o.lines code)) :
    t ∈ jumpTargets (code.map Piece.plain) ∨ t ∈ Piece.rets code := by
  rw [lines, jumpTargets_flatMap, List.mem_flatMap] at h
  obtain ⟨piece, hpiece, ht⟩ := h
  rcases Piece.mem_jumpTargets_expand ht with ht | ⟨p, ht⟩
  · refine .inl ?_
    obtain ⟨l, hl, hlt⟩ := List.mem_filterMap.1 ht
    rw [List.mem_singleton.1 hl] at hlt
    exact List.mem_filterMap.2 ⟨_, List.mem_map_of_mem hpiece, hlt⟩
  · exact .inr ((Piece.returns_sublist code p).subset ht)

theorem noRaw_lines (h : NoRaw (code.map Piece.plain)) : NoRaw (o.lines code) :=
  NoRaw.flatMap.2 fun _ hpiece => Piece.noRaw_expand (h _ (List.mem_map_of_mem hpiece))

end Outline

/-- The lines of a program can be run. -/
theorem Program.Coded.closed {p : Program} {code : List Piece} {o : Outline}
    (h : p.Coded code o) : Image.Closed (o.lines (pieces code)) := by
  have hlabels := h.block.labels h.asmFree start_sound
  obtain ⟨ns, hs, hheadings, hperm, -⟩ := hlabels.names
  have hprologue : labelNames Code.prologue = [] := rfl
  have hnames : labelNames ((pieces code).map Piece.plain) = labelNames (code.map Piece.plain) := by
    simp [pieces, hprologue]
  refine ⟨?_, ?_, Outline.noRaw_lines ?_⟩
  · rw [Outline.labelNames_lines]
    exact nodup_labels h.block h.asmFree
  · intro t ht
    rw [Outline.labelNames_lines]
    rcases Outline.mem_jumpTargets_lines ht with ht | ht
    · rw [hnames]
      rw [pieces, List.map_append, Piece.map_plain_ofLines, jumpTargets_append,
        List.mem_append] at ht
      rcases ht with ht | ht
      · have : jumpTargets Code.prologue = ["@main"] := rfl
        rw [this, List.mem_singleton] at ht
        exact hperm.mem_iff.2 (ht ▸ List.mem_cons_self)
      · refine (hlabels.closed t ht).elim id ?_
        rintro ⟨q, hq, rfl⟩
        have hq : q ∈ hs := by simpa [hheadings, Outline.start] using hq
        exact hperm.mem_iff.2 (List.mem_cons_of_mem _ (List.mem_append_right _
          (List.mem_map.2 ⟨q, hq, rfl⟩)))
    · exact ((Piece.returnable_ofLines _).append h.block.returnable).subset ht
  · rw [pieces, List.map_append, Piece.map_plain_ofLines]
    exact NoRaw.append.2 ⟨by unfold NoRaw; decide, hlabels.noRaw⟩

end NibblePascal
