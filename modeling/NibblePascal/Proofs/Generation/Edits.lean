import NibblePascal.Code.Generator
import NibblePascal.Proofs.Except
import NibblePascal.Proofs.Generation.Sequence

/-!
# Edits that make calls return

Once all calls of the procedures are known, the end of each procedure that is called is replaced by
its return, and the calls of each that is called more than once get their numbers.

* `Gen.mem_edits`: these are all edits;
* `Sequence.splice_eq`: edits of lines that there are can be made;
* `Sequence.Sound.splice`: the numbers of the lines stay distinct and are found in the index.
-/

namespace NibblePascal

/-- Whether a defect is an edit of the code that cannot be made. -/
def Defect.isEdit : Defect → Bool
  | unknownEntry _ | notPending _ | noEndMark _ => true
  | _ => false

/-! ### Edits of a sequence -/

namespace Sequence

variable {s t : Sequence} {edits : List (EntryId × Edit)} {id : EntryId}

/-- Several edits of a line that agree are one edit. -/
theorem editOf?_eq_some {edit : Edit}
    (hmem : (id, edit) ∈ edits) (hall : ∀ e ∈ edits, e.1 = id → e.2 = edit) :
    editOf? edits id = some edit := by
  unfold editOf?
  generalize (none : Option Edit) = found
  induction edits generalizing found with
  | nil => cases hmem
  | cons e edits ih =>
    have hrest : ∀ d ∈ edits, d.1 = id → d.2 = edit :=
      fun d hd => hall d (List.mem_cons_of_mem _ hd)
    rw [List.foldl_cons]
    by_cases h : (id, edit) ∈ edits
    · exact ih h hrest _
    · obtain rfl : (id, edit) = e := (List.mem_cons.1 hmem).resolve_right h
      -- No later edit of this line is there, since it would be the same one again.
      have hkeep : ∀ found, edits.foldl (fun found e => if e.1 == id then some e.2 else found)
          found = found := by
        intro found
        refine List.foldlRecOn edits _ (motive := (· = found)) rfl ?_
        intro acc hacc d hd
        rw [if_neg, hacc]
        intro hid
        have hid : d.1 = id := by simpa using hid
        exact h (by rw [← hid, ← hrest d hd hid]; exact hd)
      rw [hkeep]
      simp

theorem editOf?_eq_none (h : ∀ e ∈ edits, e.1 ≠ id) : editOf? edits id = none := by
  refine List.foldlRecOn edits _ (motive := (· = none)) rfl ?_
  intro acc hacc d hd
  rw [if_neg, hacc]
  simpa using h d hd

theorem contains_iff : s.contains id = true ↔ id ∈ s.items.toList.map (·.id) := by
  simp only [contains, Array.any_eq_true', List.mem_map, Array.mem_toList_iff, beq_iff_eq]

/-- Edits of lines that there are can be made. -/
theorem splice_eq (h : ∀ id edit, (id, edit) ∈ edits → id ∈ s.items.toList.map (·.id)) :
    s.splice edits = .ok ⟨(edited (editOf? edits) s.next s.items.toList).1.toArray,
      indexOf (edited (editOf? edits) s.next s.items.toList).2
        (edited (editOf? edits) s.next s.items.toList).1,
      (edited (editOf? edits) s.next s.items.toList).2⟩ := by
  have hfind : edits.find? (fun e => !s.contains e.1) = none := by
    refine List.find?_eq_none.2 fun e he => ?_
    simp [contains_iff.2 (h e.1 e.2 he)]
  rw [splice, hfind]

/-- Edits can only be made of lines that there are. -/
theorem mem_ids_of_splice (h : s.splice edits = .ok t) {e : EntryId × Edit} (he : e ∈ edits) :
    e.1 ∈ s.items.toList.map (·.id) := by
  unfold splice at h
  split at h
  · cases h
  · rename_i hfind
    exact contains_iff.1 (by simpa using List.find?_eq_none.1 hfind e he)

/-- The entries after some edits are old ones, or new ones with numbers from `next` on and lines
from an edit. -/
theorem mem_edited {edit? : EntryId → Option Edit} {next : EntryId} {es : List Entry} :
    next ≤ (edited edit? next es).2 ∧ ∀ d ∈ (edited edit? next es).1,
      d ∈ es ∨ (next ≤ d.id ∧ d.id < (edited edit? next es).2)
        ∧ ∃ id, ∃ edit ∈ edit? id, d.line ∈ edit.lines := by
  induction es generalizing next with
  | nil => exact ⟨Nat.le_refl next, fun d hd => absurd hd List.not_mem_nil⟩
  | cons e es ih =>
    rw [edited]
    cases hedit : edit? e.id with
    | none =>
      obtain ⟨hle, hmem⟩ := @ih next
      refine ⟨hle, fun d hd => ?_⟩
      rcases List.mem_cons.1 hd with rfl | hd
      · exact .inl List.mem_cons_self
      · exact (hmem d hd).imp_left (List.mem_cons_of_mem _)
    | some edit =>
      obtain ⟨hle, hmem⟩ := @ih (next + edit.lines.length)
      have hnext := Nat.le_add_right next edit.lines.length
      refine ⟨Nat.le_trans hnext hle, fun d hd => ?_⟩
      have hrest := fun hd => (hmem d hd).imp (List.mem_cons_of_mem e)
        (And.imp_left (And.imp_left (Nat.le_trans hnext)))
      rcases List.mem_append.1 hd with hd | hd
      · refine .inr ⟨⟨next_le_of_mem_number hd, Nat.lt_of_lt_of_le (id_lt_of_mem_number hd) hle⟩,
          e.id, edit, hedit, ?_⟩
        rw [← map_line_number next edit.lines]
        exact List.mem_map_of_mem hd
      · split at hd
        · rcases List.mem_cons.1 hd with rfl | hd
          · exact .inl List.mem_cons_self
          · exact hrest hd
        · exact hrest hd

/-- What holds of all lines, and of jumps, holds when a jump has got its target. -/
theorem forall_patch {Q : Line → Prop} (hQ : ∀ kind target, Q (.inst (.jump kind target)))
    {label : String} (h : s.patch id label = .ok t) (hs : ∀ l ∈ s.lines, Q l) :
    ∀ l ∈ t.lines, Q l := by
  unfold patch at h
  split at h
  · cases h
  · split at h
    · cases h
    · rename_i line hline
      cases h
      have hjump : Q line := by
        obtain ⟨e, -, haim⟩ := Option.bind_eq_some_iff.1 hline
        unfold aim at haim
        split at haim
        · split at haim <;> cases haim
          exact hQ _ _
        · cases haim
      intro l hl
      obtain ⟨e, he, rfl⟩ := List.mem_map.1 hl
      obtain ⟨i, hi⟩ := List.getElem?_of_mem he
      rw [Array.toList_modify, List.getElem?_modify] at hi
      obtain ⟨d, hd, rfl⟩ := Option.map_eq_some_iff.1 hi
      split
      exacts [hjump, hs _ (List.mem_map_of_mem (List.mem_of_getElem? hd))]

theorem forall_patchAll {Q : Line → Prop} (hQ : ∀ kind target, Q (.inst (.jump kind target)))
    {ids : List EntryId} {label : String} (h : s.patchAll ids label = .ok t)
    (hs : ∀ l ∈ s.lines, Q l) : ∀ l ∈ t.lines, Q l := by
  induction ids generalizing s with
  | nil =>
    cases h
    exact hs
  | cons id ids ih =>
    obtain ⟨u, hu, h⟩ := of_bind_ok h
    exact ih h (forall_patch hQ hu hs)

theorem isEdit_of_patchAll {ids : List EntryId} {label : String} {why : Defect}
    (h : s.patchAll ids label = .error why) : why.isEdit = true := by
  induction ids generalizing s with
  | nil => cases h
  | cons id ids ih =>
    obtain h | ⟨t, -, h⟩ := of_bind_error h
    · dsimp only [patch] at h
      split at h
      · cases h
        rfl
      · split at h <;> cases h
        rfl
    · exact ih h

/-- What holds of all lines, and of those that edits bring in, holds after the edits. -/
theorem forall_splice {Q : Line → Prop} (h : s.splice edits = .ok t) (hs : ∀ l ∈ s.lines, Q l)
    (hedits : ∀ e ∈ edits, ∀ l ∈ e.2.lines, Q l) : ∀ l ∈ t.lines, Q l := by
  have hedit : ∀ id, ∀ edit ∈ editOf? edits id, ∀ l ∈ edit.lines, Q l := by
    intro id
    refine List.foldlRecOn edits _ (motive := fun found => ∀ edit : Edit, edit ∈ found →
      ∀ l ∈ edit.lines, Q l) nofun fun found ih e he => ?_
    split
    · rintro _ ⟨⟩
      exact hedits e he
    · exact ih
  unfold splice at h
  split at h
  · cases h
  · cases h
    intro l hl
    obtain ⟨d, hd, rfl⟩ := List.mem_map.1 hl
    obtain hd | ⟨-, id, edit, hfound, hline⟩ := mem_edited.2 d hd
    exacts [hs _ (List.mem_map_of_mem hd), hedit id edit hfound _ hline]

/-- An old entry is not among those that the edits of the others lead to. -/
theorem id_ne_of_mem_edited {edit? : EntryId → Option Edit} {next : EntryId} {e d : Entry}
    {es : List Entry} (hnodup : ((e :: es).map (·.id)).Nodup) (hbelow : e.id < next)
    (hd : d ∈ (edited edit? next es).1) : e.id ≠ d.id := by
  rcases mem_edited.2 d hd with hd | ⟨⟨hle, -⟩, -⟩
  · intro h
    exact (List.nodup_cons.1 hnodup).1 (List.mem_map.2 ⟨d, hd, h.symm⟩)
  · exact Nat.ne_of_lt (Nat.lt_of_lt_of_le hbelow hle)

theorem nodup_edited {edit? : EntryId → Option Edit} {next : EntryId} {es : List Entry}
    (hnodup : (es.map (·.id)).Nodup) (hbelow : ∀ e ∈ es, e.id < next) :
    ((edited edit? next es).1.map (·.id)).Nodup := by
  induction es generalizing next with
  | nil => exact List.nodup_nil
  | cons e es ih =>
    obtain ⟨he, hes⟩ := List.forall_mem_cons.1 hbelow
    have htail := (List.nodup_cons.1 hnodup).2
    -- The entry itself and what becomes of the others.
    have hcons : ∀ {last}, e.id < last → (∀ d ∈ es, d.id < last) →
        ((e :: (edited edit? last es).1).map (·.id)).Nodup := by
      intro last hlt hlast
      refine List.nodup_cons.2 ⟨fun hmem => ?_, ih htail hlast⟩
      obtain ⟨d, hd, hid⟩ := List.mem_map.1 hmem
      exact id_ne_of_mem_edited hnodup hlt hd hid.symm
    rw [edited]
    cases edit? e.id with
    | none => exact hcons he hes
    | some edit =>
      have hnext := Nat.le_add_right next edit.lines.length
      have he' := Nat.lt_of_lt_of_le he hnext
      have hes' : ∀ d ∈ es, d.id < next + edit.lines.length :=
        fun d hd => Nat.lt_of_lt_of_le (hes d hd) hnext
      -- The new entries have numbers that no old one and no later one has.
      have hnew : ∀ d ∈ e :: (edited edit? (next + edit.lines.length) es).1,
          d.id < next ∨ next + edit.lines.length ≤ d.id := by
        intro d hd
        rcases List.mem_cons.1 hd with rfl | hd
        · exact .inl he
        · exact (mem_edited.2 d hd).imp (hes d) (·.1.1)
      have happend : ∀ ds : List Entry,
          ds.Sublist (e :: (edited edit? (next + edit.lines.length) es).1) →
          ((number next edit.lines ++ ds).map (·.id)).Nodup := by
        intro ds hds
        rw [List.map_append, List.nodup_append]
        refine ⟨nodup_number .., (hcons he' hes').sublist (hds.map _), fun i hi j hj hij => ?_⟩
        obtain ⟨c, hc, rfl⟩ := List.mem_map.1 hi
        obtain ⟨d, hd, rfl⟩ := List.mem_map.1 hj
        rcases hnew d (hds.subset hd) with hlt | hle
        · exact absurd (next_le_of_mem_number hc) (Nat.not_le_of_lt (hij ▸ hlt))
        · exact absurd (id_lt_of_mem_number hc) (Nat.not_lt_of_le (hij ▸ hle))
      refine happend _ ?_
      split
      · exact List.Sublist.refl _
      · exact List.sublist_cons_self ..

/-- Entries with other numbers leave a place of the index as it is. -/
theorem getElem?_indexOf_of_ne (index : Array (Option Nat)) (k : Nat) {es : List Entry}
    (h : ∀ e ∈ es, e.id ≠ id) : ((es.zipIdx k).foldl
      (fun index e => index.setIfInBounds e.1.id (some e.2)) index)[id]? = index[id]? := by
  induction es generalizing index k with
  | nil => rfl
  | cons e es ih =>
    obtain ⟨he, hes⟩ := List.forall_mem_cons.1 h
    rw [List.zipIdx_cons, List.foldl_cons, ih _ _ hes, Array.getElem?_setIfInBounds, if_neg he]

/-- The place of an entry's number gets the entry's position. -/
theorem getElem?_indexOf_of_mem (index : Array (Option Nat)) (k : Nat) {es : List Entry} {pos : Nat}
    {e : Entry} (hnodup : (es.map (·.id)).Nodup) (he : es[pos]? = some e)
    (hlt : e.id < index.size) : ((es.zipIdx k).foldl
      (fun index e => index.setIfInBounds e.1.id (some e.2)) index)[e.id]? = some (some (k + pos)) := by
  induction es generalizing index k pos with
  | nil => cases he
  | cons d es ih =>
    obtain ⟨hd, hes⟩ := List.nodup_cons.1 hnodup
    rw [List.zipIdx_cons, List.foldl_cons]
    cases pos with
    | zero =>
      obtain rfl : d = e := Option.some.inj he
      rw [getElem?_indexOf_of_ne, Array.getElem?_setIfInBounds, if_pos rfl, if_pos hlt, Nat.add_zero]
      intro c hc hid
      exact hd (List.mem_map.2 ⟨c, hc, hid⟩)
    | succ pos =>
      rw [ih _ _ hes he (by rwa [Array.size_setIfInBounds]), Nat.add_assoc, Nat.add_comm 1]

/-- The index of entries with distinct numbers leads to their positions and nowhere else. -/
theorem indexOf_eq_some_iff {es : List Entry} {count pos : Nat} (hnodup : (es.map (·.id)).Nodup)
    (hbelow : ∀ e ∈ es, e.id < count) :
    (indexOf count es)[id]?.join = some pos ↔ ∃ line, es[pos]? = some ⟨id, line⟩ := by
  rw [Option.join_eq_some_iff]
  constructor
  · intro h
    by_cases hid : id ∈ es.map (·.id)
    · obtain ⟨e, he, rfl⟩ := List.mem_map.1 hid
      obtain ⟨k, hk⟩ := List.getElem?_of_mem he
      have hfound := getElem?_indexOf_of_mem (Array.replicate count none) 0 hnodup hk
        (by simpa using hbelow e he)
      obtain rfl : 0 + k = pos := by simpa [indexOf] using hfound.symm.trans h
      exact ⟨e.line, by rw [Nat.zero_add, hk]⟩
    · have hnone := getElem?_indexOf_of_ne (Array.replicate count none) 0
        fun e he heq => hid (List.mem_map.2 ⟨e, he, heq⟩)
      have := hnone.symm.trans h
      rw [Array.getElem?_replicate] at this
      split at this <;> cases this
  · rintro ⟨line, hline⟩
    have hfound := getElem?_indexOf_of_mem (Array.replicate count none) 0 hnodup hline
      (by simpa using hbelow _ (List.mem_of_getElem? hline))
    rwa [Nat.zero_add] at hfound

theorem size_indexOf (count : Nat) (es : List Entry) : (indexOf count es).size = count := by
  unfold indexOf
  refine List.foldlRecOn es.zipIdx _
    (motive := fun index : Array (Option Nat) => index.size = count) Array.size_replicate ?_
  intro index hindex e _
  rw [Array.size_setIfInBounds, hindex]

/-- The numbers of the lines stay distinct, and the index leads to the new positions. -/
theorem Sound.splice (hs : s.Sound) (h : s.splice edits = .ok t) : t.Sound := by
  have hmem := fun id edit (hedit : (id, edit) ∈ edits) => mem_ids_of_splice h hedit
  cases (splice_eq hmem).symm.trans h
  have hnodup : ((edited (editOf? edits) s.next s.items.toList).1.map (·.id)).Nodup :=
    nodup_edited hs.nodup hs.below
  have hbelow : ∀ d ∈ (edited (editOf? edits) s.next s.items.toList).1,
      d.id < (edited (editOf? edits) s.next s.items.toList).2 := by
    intro d hd
    obtain ⟨hle, hmem⟩ := @mem_edited (editOf? edits) s.next s.items.toList
    rcases hmem d hd with hd | ⟨⟨-, hlt⟩, -⟩
    · exact Nat.lt_of_lt_of_le (hs.below d hd) hle
    · exact hlt
  exact ⟨hnodup, hbelow, size_indexOf .., by
    intro id pos
    rw [List.getElem?_toArray]
    exact indexOf_eq_some_iff hnodup hbelow⟩

end Sequence

/-! ### Edits for calls and returns -/

/-- An edit writes the return of a procedure that is called, or the number of one of several
calls. -/
inductive Procedure.IsEdit (p : Procedure) (id : EntryId) (edit : Edit) : Prop
  | finish (hcalls : p.calls ≠ []) (hfinish : p.finish = some id)
      (hedit : edit = .replace (Code.returnDispatch p.selector (p.calls.map (·.ret))))
  | call {k : Nat} {c : Call} (hmany : 1 < p.calls.length) (hcall : p.calls[k]? = some c)
      (hentry : c.entry = id) (hedit : edit = .insertBefore (Code.selectCall p.selector k))

namespace Gen

variable {p : Procedure} {es : List (EntryId × Edit)} {id : EntryId} {edit : Edit}

/-- The edits for a procedure. -/
theorem of_returnEdits (h : returnEdits p = .ok es) :
    (p.calls = [] ∧ es = []) ∨ (p.calls ≠ [] ∧ ∃ finish, p.finish = some finish
      ∧ es = (finish, .replace (Code.returnDispatch p.selector (p.calls.map (·.ret)))) ::
        if 1 < p.calls.length then p.calls.zipIdx.map fun (c, i) =>
          (c.entry, .insertBefore (Code.selectCall p.selector i)) else []) := by
  unfold returnEdits at h
  by_cases hc : p.calls = []
  · rw [if_pos (by simp [hc])] at h
    cases h
    exact .inl ⟨hc, rfl⟩
  · rw [if_neg (by simpa using hc)] at h
    cases hf : p.finish with
    | none =>
      simp only [hf] at h
      cases h
    | some finish =>
      simp only [hf] at h
      cases h
      exact .inr ⟨hc, finish, rfl, rfl⟩

theorem exists_returnEdits (h : p.calls ≠ [] → ∃ finish, p.finish = some finish) :
    ∃ es, returnEdits p = .ok es := by
  unfold returnEdits
  split
  · exact ⟨_, rfl⟩
  · rename_i hc
    obtain ⟨finish, hf⟩ := h (by simpa using hc)
    simp only [hf]
    exact ⟨_, rfl⟩

theorem mem_returnEdits (h : returnEdits p = .ok es) : (id, edit) ∈ es ↔ p.IsEdit id edit := by
  obtain ⟨hnil, rfl⟩ | ⟨hc, finish, hf, rfl⟩ := of_returnEdits h
  · refine ⟨fun hmem => absurd hmem List.not_mem_nil, ?_⟩
    rintro (⟨hcalls, -⟩ | ⟨hmany, -⟩)
    · exact absurd hnil hcalls
    · simp [hnil] at hmany
  constructor
  · intro hmem
    rcases List.mem_cons.1 hmem with heq | hmem
    · cases heq
      exact .finish hc hf rfl
    · split at hmem
      case isTrue hmany =>
        obtain ⟨⟨c, k⟩, hck, heq⟩ := List.mem_map.1 hmem
        cases heq
        exact .call hmany (List.mem_zipIdx_iff_getElem?.1 hck) rfl rfl
      case isFalse => cases hmem
  · rintro (⟨-, hf', rfl⟩ | @⟨k, c, hmany, hk, rfl, rfl⟩)
    · cases hf.symm.trans hf'
      exact List.mem_cons_self
    · rw [if_pos hmany]
      exact List.mem_cons_of_mem _ (List.mem_map.2 ⟨(c, k),
        List.mem_zipIdx_iff_getElem?.2 hk, rfl⟩)

/-- The edits for all procedures. -/
theorem mem_edits {procedures : List Procedure} {edits : List (List (EntryId × Edit))}
    (h : procedures.mapM returnEdits = .ok edits) :
    (id, edit) ∈ edits.flatten ↔ ∃ p ∈ procedures, p.IsEdit id edit := by
  obtain ⟨hto, hfrom⟩ := mem_of_mapM_ok h
  constructor
  · intro hmem
    obtain ⟨es, hes, hmem⟩ := List.mem_flatten.1 hmem
    obtain ⟨p, hp, heq⟩ := hfrom es hes
    exact ⟨p, hp, (mem_returnEdits heq).1 hmem⟩
  · rintro ⟨p, hp, hedit⟩
    obtain ⟨es, hes, heq⟩ := hto p hp
    exact List.mem_flatten.2 ⟨es, hes, (mem_returnEdits heq).2 hedit⟩

theorem isEdit_of_dispatch {procedures : List Procedure} {s : Sequence} {why : Defect}
    (h : (procedures.mapM returnEdits >>= fun edits => s.splice edits.flatten) = .error why) :
    why.isEdit = true := by
  obtain hedits | ⟨edits, -, h⟩ := of_bind_error h
  · clear h
    induction procedures with
    | nil => cases hedits
    | cons p procedures ih =>
      rw [List.mapM_cons] at hedits
      obtain h | ⟨_, -, h⟩ := of_bind_error hedits
      · unfold returnEdits at h
        split at h
        · cases h
        · split at h <;> cases h
          rfl
      · obtain h | ⟨_, -, h⟩ := of_bind_error h
        exacts [ih h, by cases h]
  · unfold Sequence.splice at h
    split at h <;> cases h
    rfl

end Gen

end NibblePascal
