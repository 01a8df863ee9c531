import Mathlib.Data.List.Nodup
import NibblePascal.Proofs.Generation.Edits

/-!
# Numbers stay with their lines

Lines are pushed, patched and spliced in any order.  However that is done, a line that is not
replaced keeps its number and its place among the others, and no number is used again.

* `Change`, `applyAll`: the calls on a sequence, one after the other;
* `arrivals`: the numbers that come in on the way;
* `s.Keeps cs t`: what the changes `cs` from `s` to `t` leave of the entries of `s`.  One change does
  so, `Sound.keeps_apply`, and hence many, `Sound.applyAll`.
-/

namespace NibblePascal

namespace Sequence

/-- The numbers of the lines, in order. -/
def ids (s : Sequence) : List EntryId := s.items.toList.map (·.id)

/-- A call on a sequence. -/
inductive Change
  | push (line : Line)
  | patch (id : EntryId) (label : String)
  | splice (edits : List (EntryId × Edit))

namespace Change

/-- Make a change. -/
def apply (s : Sequence) : Change → Except Defect Sequence
  | push line => .ok (s.push line)
  | patch id label => s.patch id label
  | splice edits => s.splice edits

/-- Whether a change replaces the line with the given number. -/
def replaces (id : EntryId) : Change → Bool
  | splice edits => (editOf? edits id).any (!·.keeps)
  | _ => false

/-- The target that a change gives to the jump with the given number.  The empty label is none. -/
def target? (id : EntryId) : Change → Option String
  | patch other label => if other = id ∧ label ≠ "" then some label else none
  | _ => none

end Change

/-- Make changes one after the other. -/
def applyAll (s : Sequence) : List Change → Except Defect Sequence
  | [] => .ok s
  | c :: cs => (c.apply s).bind (·.applyAll cs)

/-- The numbers that come in while changes are made. -/
def arrivals (s : Sequence) : List Change → List EntryId
  | [] => []
  | c :: cs =>
      match c.apply s with
      | .ok t => t.ids.filter (· ∉ s.ids) ++ t.arrivals cs
      | .error _ => []

/-- What becomes of a line that is left: it stays as it is, or it is a pending jump and gets its one
target. -/
inductive Aimed : List String → Line → Line → Prop
  | kept (l : Line) : Aimed [] l l
  | filled (kind : JumpKind) {label : String} (h : label ≠ "") :
      Aimed [label] (Code.jump kind "") (Code.jump kind label)

/-- The entries of `s` of which the changes `cs` leave something in `t`. -/
structure Keeps (s : Sequence) (cs : List Change) (t : Sequence) : Prop where
  next_le : s.next ≤ t.next
  /-- The old numbers that are left are those of the lines that were not replaced, in their old
  order. -/
  order : t.ids.filter (· < s.next) = s.ids.filter fun id => !cs.any (·.replaces id)
  /-- A line that is left is the old one, up to the target of its one patch. -/
  line : ∀ d ∈ s.items.toList, ∀ e ∈ t.items.toList, e.id = d.id →
    Aimed (cs.filterMap (·.target? d.id)) d.line e.line

variable {s t u : Sequence} {c : Change} {cs ds : List Change}

theorem applyAll_cons : s.applyAll (c :: cs) = .ok u ↔
    ∃ t, c.apply s = .ok t ∧ t.applyAll cs = .ok u := by
  rw [applyAll]
  cases c.apply s with
  | ok t => simp [Except.bind]
  | error why => simp [Except.bind]

theorem mem_ids {id : EntryId} : id ∈ s.ids ↔ ∃ e ∈ s.items.toList, e.id = id := List.mem_map

theorem Sound.id_lt (hs : s.Sound) {id : EntryId} (h : id ∈ s.ids) : id < s.next := by
  obtain ⟨e, he, rfl⟩ := mem_ids.1 h
  exact hs.below e he

theorem Sound.filter_ids (hs : s.Sound) : s.ids.filter (· < s.next) = s.ids :=
  List.filter_eq_self.2 fun _ h => decide_eq_true (hs.id_lt h)

theorem getElem?_ids {pos : Nat} {id : EntryId} :
    (∃ line, s.items[pos]? = some ⟨id, line⟩) ↔ s.ids[pos]? = some id := by
  rw [ids, List.getElem?_map, Option.map_eq_some_iff, ← Array.getElem?_toList]
  constructor
  · rintro ⟨line, h⟩
    exact ⟨_, h, rfl⟩
  · rintro ⟨e, h, rfl⟩
    exact ⟨e.line, h⟩

/-- Whether a sequence is sound does not depend on what the lines say. -/
theorem Sound.congr (hs : s.Sound) (hids : t.ids = s.ids) (hindex : t.index = s.index)
    (hnext : t.next = s.next) : t.Sound where
  nodup := by
    show t.ids.Nodup
    rw [hids]
    exact hs.nodup
  below := by
    intro e he
    rw [hnext]
    exact hs.id_lt (hids ▸ mem_ids.2 ⟨e, he, rfl⟩)
  size := by rw [hindex, hnext, hs.size]
  indexed := by
    intro id pos
    rw [getElem?_ids, hids, ← getElem?_ids, ← hs.indexed, position?, position?, hindex]

/-- Entries with one number are one entry. -/
theorem Sound.entry_eq (hs : s.Sound) {d e : Entry} (hd : d ∈ s.items.toList)
    (he : e ∈ s.items.toList) (hid : e.id = d.id) : e = d :=
  List.inj_on_of_nodup_map hs.nodup he hd hid

/-! ### Patches -/

/-- A pending jump with the number `id` gets the target `label`. -/
structure Patched (s : Sequence) (id : EntryId) (label : String) (t : Sequence) : Prop where
  exists_split : ∃ before kind after,
    s.items.toList = before ++ ⟨id, Code.jump kind ""⟩ :: after
      ∧ t.items.toList = before ++ ⟨id, Code.jump kind label⟩ :: after
  index : t.index = s.index
  next : t.next = s.next

theorem Patched.ids_eq {id : EntryId} {label : String} (h : s.Patched id label t) :
    t.ids = s.ids := by
  obtain ⟨before, kind, after, hs, ht⟩ := h.exists_split
  rw [ids, ids, hs, ht]
  simp

theorem aim_eq_some_iff {label : String} {l l' : Line} :
    aim label l = some l' ↔ ∃ kind, l = Code.jump kind "" ∧ l' = Code.jump kind label := by
  constructor
  · intro h
    unfold aim at h
    split at h
    · rename_i kind target
      split at h
      · rename_i hempty
        obtain rfl : target = "" := String.isEmpty_iff.1 hempty
        exact ⟨kind, rfl, (Option.some.inj h).symm⟩
      · cases h
    · cases h
  · rintro ⟨kind, rfl, rfl⟩
    simp [aim, Code.jump]

theorem Sound.patch_eq_ok (hs : s.Sound) {id : EntryId} {label : String}
    (h : s.patch id label = .ok t) : s.Patched id label t := by
  unfold patch at h
  split at h
  · cases h
  · rename_i pos hpos
    obtain ⟨line, hline⟩ := hs.indexed.1 hpos
    split at h
    · cases h
    · rename_i line' haim
      rw [hline, Option.bind_some] at haim
      obtain ⟨kind, rfl, rfl⟩ := aim_eq_some_iff.1 haim
      cases h
      rw [← Array.getElem?_toList] at hline
      obtain ⟨hlt, hget⟩ := List.getElem?_eq_some_iff.1 hline
      refine ⟨⟨s.items.toList.take pos, kind, s.items.toList.drop (pos + 1), ?_, ?_⟩, rfl, rfl⟩
      · rw [← hget, ← List.drop_eq_getElem_cons hlt, List.take_append_drop]
      · rw [Array.toList_modify, List.modify_eq_take_cons_drop hlt, hget]

/-- A patch is made exactly of a jump that waits for its target. -/
theorem Sound.patch_fails_iff (hs : s.Sound) {id : EntryId} {label : String} :
    (∃ why, s.patch id label = .error why) ↔
      ∀ line, ⟨id, line⟩ ∈ s.items.toList → ∀ kind, line ≠ Code.jump kind "" := by
  constructor
  · rintro ⟨why, h⟩ line hmem kind rfl
    obtain ⟨pos, hline⟩ := List.getElem?_of_mem hmem
    rw [Array.getElem?_toList] at hline
    have haim : aim label (Code.jump kind "") = some (Code.jump kind label) :=
      aim_eq_some_iff.2 ⟨kind, rfl, rfl⟩
    rw [patch, hs.indexed.2 ⟨_, hline⟩] at h
    simp only [hline, Option.bind_some, haim] at h
    cases h
  · intro hall
    cases h : s.patch id label with
    | error why => exact ⟨why, rfl⟩
    | ok t =>
      obtain ⟨⟨before, kind, after, hitems, -⟩, -, -⟩ := hs.patch_eq_ok h
      exact absurd rfl (hall _ (by rw [hitems]; simp) kind)

/-- A splice is made exactly if every number to edit is there. -/
theorem splice_fails_iff {edits : List (EntryId × Edit)} :
    (∃ why, s.splice edits = .error why) ↔ ∃ e ∈ edits, e.1 ∉ s.ids := by
  constructor
  · rintro ⟨why, h⟩
    by_contra hall
    push Not at hall
    cases (splice_eq fun id edit hmem => hall (id, edit) hmem).symm.trans h
  · rintro ⟨e, he, hid⟩
    cases h : s.splice edits with
    | error why => exact ⟨why, rfl⟩
    | ok t => exact absurd (mem_ids_of_splice h he) hid

/-! ### What one change leaves -/

/-- The old numbers that are left by a splice. -/
theorem filter_ids_edited {edit? : EntryId → Option Edit} {next last : EntryId} {es : List Entry}
    (hlast : last ≤ next) (hbelow : ∀ e ∈ es, e.id < last) :
    ((edited edit? next es).1.map (·.id)).filter (· < last) =
      (es.map (·.id)).filter fun id => !(edit? id).any (!·.keeps) := by
  induction es generalizing next with
  | nil => rfl
  | cons e es ih =>
    obtain ⟨he, hes⟩ := List.forall_mem_cons.1 hbelow
    rw [edited, List.map_cons]
    cases hedit : edit? e.id with
    | none =>
      simp only [List.map_cons]
      rw [List.filter_cons_of_pos (by simpa using he), List.filter_cons_of_pos (by simp [hedit]),
        ih hlast hes]
    | some edit =>
      -- The lines of the edit have numbers that are all new.
      have hnew : ((number next edit.lines).map (·.id)).filter (· < last) = [] := by
        refine List.filter_eq_nil_iff.2 fun id hid => ?_
        obtain ⟨d, hd, rfl⟩ := List.mem_map.1 hid
        simpa using Nat.le_trans hlast (next_le_of_mem_number hd)
      have hrest := ih (Nat.le_trans hlast (Nat.le_add_right next edit.lines.length)) hes
      simp only [List.map_append, List.filter_append, hnew, List.nil_append]
      cases hkeeps : edit.keeps with
      | true =>
        rw [if_pos rfl, List.map_cons, List.filter_cons_of_pos (by simpa using he),
          List.filter_cons_of_pos (by simp [hedit, hkeeps]), hrest]
      | false =>
        rw [if_neg (by decide), List.filter_cons_of_neg (by simp [hedit, hkeeps]), hrest]

theorem Sound.apply (hs : s.Sound) (h : c.apply s = .ok t) : t.Sound := by
  cases c with
  | push line =>
    cases h
    exact hs.push line
  | patch id label =>
    have hpatched := hs.patch_eq_ok h
    exact hs.congr hpatched.ids_eq hpatched.index hpatched.next
  | splice edits => exact hs.splice h

/-- A new line leaves all others as they are. -/
theorem Sound.keeps_push (hs : s.Sound) (line : Line) : s.Keeps [.push line] (s.push line) where
  next_le := Nat.le_succ _
  order := by
    have hids : (s.push line).ids = s.ids ++ [s.next] := by simp [ids, Sequence.push]
    rw [hids, List.filter_append, hs.filter_ids, List.filter_cons_of_neg (by simp), List.filter_nil,
      List.append_nil]
    exact (List.filter_eq_self.2 fun _ _ => rfl).symm
  line := by
    intro d hd e he hid
    rw [Sequence.push, Array.toList_push] at he
    rcases List.mem_append.1 he with he | he
    · rw [hs.entry_eq hd he hid]
      exact .kept _
    · have hlt := hs.below d hd
      rw [← hid, List.mem_singleton.1 he] at hlt
      exact absurd hlt (Nat.lt_irrefl _)

/-- A patch leaves all lines as they are but the one that gets its target. -/
theorem Sound.keeps_patch (hs : s.Sound) {id : EntryId} {label : String}
    (h : s.patch id label = .ok t) : s.Keeps [.patch id label] t := by
  have hpatched := hs.patch_eq_ok h
  have ht := hs.congr hpatched.ids_eq hpatched.index hpatched.next
  refine ⟨Nat.le_of_eq hpatched.next.symm, ?_, fun d hd e he hid => ?_⟩
  · rw [hpatched.ids_eq, hs.filter_ids]
    exact (List.filter_eq_self.2 fun _ _ => rfl).symm
  obtain ⟨before, kind, after, hold, hnew⟩ := hpatched.exists_split
  by_cases hd' : d.id = id
  · -- Both entries are the one with the number `id`.
    obtain rfl := hs.entry_eq (d := ⟨id, Code.jump kind ""⟩) (by rw [hold]; simp) hd hd'
    obtain rfl := ht.entry_eq (d := ⟨id, Code.jump kind label⟩) (by rw [hnew]; simp) he hid
    by_cases hlabel : label = ""
    · subst hlabel
      simpa [Change.target?] using Aimed.kept (Code.jump kind "")
    · simpa [Change.target?, hlabel] using Aimed.filled kind hlabel
  · have he' : e ∈ s.items.toList := by
      rw [hnew, List.mem_append, List.mem_cons] at he
      rw [hold, List.mem_append, List.mem_cons]
      rcases he with he | rfl | he
      · exact .inl he
      · exact absurd hid.symm hd'
      · exact .inr (.inr he)
    rw [hs.entry_eq hd he' hid]
    simpa [Change.target?, Ne.symm hd'] using Aimed.kept d.line

/-- A splice leaves the lines that it does not replace as they are. -/
theorem Sound.keeps_splice (hs : s.Sound) {edits : List (EntryId × Edit)}
    (h : s.splice edits = .ok t) : s.Keeps [.splice edits] t := by
  cases (splice_eq fun _ _ hmem => mem_ids_of_splice h hmem).symm.trans h
  obtain ⟨hle, hmem⟩ := @mem_edited (editOf? edits) s.next s.items.toList
  refine ⟨hle, ?_, fun d hd e he hid => ?_⟩
  · rw [ids, filter_ids_edited (Nat.le_refl _) hs.below]
    simp [ids, Change.replaces]
  · rcases hmem e he with he | ⟨⟨hnew, -⟩, -⟩
    · rw [hs.entry_eq hd he hid]
      exact .kept _
    · exact absurd (hs.below d hd) (Nat.not_lt_of_le (hid ▸ hnew))

theorem Sound.keeps_apply (hs : s.Sound) (h : c.apply s = .ok t) : s.Keeps [c] t := by
  cases c with
  | push line =>
    cases h
    exact hs.keeps_push line
  | patch id label => exact hs.keeps_patch h
  | splice edits => exact hs.keeps_splice h

/-! ### What many changes leave -/

theorem Aimed.trans {xs ys : List String} {k l m : Line} (h : Aimed xs k l) (h' : Aimed ys l m) :
    Aimed (xs ++ ys) k m := by
  cases h with
  | kept => exact h'
  | filled kind hlabel =>
    -- A jump that has its target is patched no more.
    generalize hl : Code.jump kind _ = l at h'
    cases h' with
    | kept => exact hl ▸ .filled kind hlabel
    | filled kind' _ =>
      injection hl with hl
      injection hl with _ hlabel'
      exact absurd hlabel' hlabel

theorem Keeps.refl (hs : s.Sound) : s.Keeps [] s where
  next_le := Nat.le_refl _
  order := by
    rw [hs.filter_ids]
    exact (List.filter_eq_self.2 fun _ _ => rfl).symm
  line := by
    intro d hd e he hid
    rw [hs.entry_eq hd he hid]
    exact .kept _

theorem Keeps.trans (hs : s.Sound) (h : s.Keeps cs t) (h' : t.Keeps ds u) :
    s.Keeps (cs ++ ds) u where
  next_le := Nat.le_trans h.next_le h'.next_le
  order := by
    have hbelow (id : EntryId) : (decide (id < s.next) && decide (id < t.next)) =
        decide (id < s.next) := by
      simpa using fun hid => Nat.lt_of_lt_of_le hid h.next_le
    calc u.ids.filter (· < s.next)
        = (u.ids.filter (· < t.next)).filter (· < s.next) := by
          rw [List.filter_filter]
          exact List.filter_congr fun id _ => (hbelow id).symm
      _ = (t.ids.filter fun id => !ds.any (·.replaces id)).filter (· < s.next) := by rw [h'.order]
      _ = (t.ids.filter (· < s.next)).filter fun id => !ds.any (·.replaces id) := by
          rw [List.filter_filter, List.filter_filter]
          exact List.filter_congr fun id _ => Bool.and_comm ..
      _ = (s.ids.filter fun id => !cs.any (·.replaces id)).filter
            fun id => !ds.any (·.replaces id) := by rw [h.order]
      _ = s.ids.filter fun id => !(cs ++ ds).any (·.replaces id) := by
          rw [List.filter_filter]
          refine List.filter_congr fun id _ => ?_
          rw [List.any_append, Bool.not_or, Bool.and_comm]
  line := by
    intro d hd e he hid
    -- The entry was there between the changes, since its number is an old one.
    obtain ⟨m, hm, hme⟩ : ∃ m ∈ t.items.toList, m.id = e.id := by
      refine mem_ids.1 (List.mem_of_mem_filter (p := fun id => !ds.any (·.replaces id)) ?_)
      rw [← h'.order, List.mem_filter, decide_eq_true_eq, hid]
      exact ⟨hid ▸ mem_ids.2 ⟨e, he, rfl⟩, Nat.lt_of_lt_of_le (hs.below d hd) h.next_le⟩
    have hlast := h'.line m hm e he hme.symm
    rw [hme.trans hid] at hlast
    rw [List.filterMap_append]
    exact (h.line d hd m hm (hme.trans hid)).trans hlast

theorem Sound.applyAll (hs : s.Sound) (h : s.applyAll cs = .ok t) : t.Sound ∧ s.Keeps cs t := by
  induction cs generalizing s with
  | nil =>
    cases h
    exact ⟨hs, .refl hs⟩
  | cons c cs ih =>
    obtain ⟨r, hr, ht⟩ := applyAll_cons.1 h
    obtain ⟨hsound, hkeeps⟩ := ih (hs.apply hr) ht
    exact ⟨hsound, (hs.keeps_apply hr).trans hs hkeeps⟩

/-- The numbers that come in are new ones, and they are distinct. -/
theorem Sound.nodup_arrivals (hs : s.Sound) :
    (s.arrivals cs).Nodup ∧ ∀ id ∈ s.arrivals cs, s.next ≤ id := by
  induction cs generalizing s with
  | nil => exact ⟨List.nodup_nil, fun _ h => absurd h List.not_mem_nil⟩
  | cons c cs ih =>
    rw [arrivals]
    cases h : c.apply s with
    | error why => exact ⟨List.nodup_nil, fun _ h => absurd h List.not_mem_nil⟩
    | ok t =>
      have ht := hs.apply h
      have hkeeps := hs.keeps_apply h
      obtain ⟨hnodup, hfrom⟩ := ih ht
      -- A number below the next one is that of a line that was left.
      have hnow : ∀ id ∈ t.ids.filter (· ∉ s.ids), s.next ≤ id ∧ id < t.next := by
        intro id hid
        obtain ⟨hmem, hnew⟩ := List.mem_filter.1 hid
        refine ⟨Nat.le_of_not_lt fun hlt => ?_, ht.id_lt hmem⟩
        have hold : id ∈ t.ids.filter (· < s.next) := List.mem_filter.2 ⟨hmem, decide_eq_true hlt⟩
        rw [hkeeps.order] at hold
        exact of_decide_eq_true hnew (List.mem_of_mem_filter hold)
      refine ⟨List.nodup_append.2 ⟨ht.nodup.filter _, hnodup, ?_⟩, fun id hid => ?_⟩
      · rintro id hid _ hlater rfl
        exact absurd (hfrom id hlater) (Nat.not_le_of_lt (hnow id hid).2)
      · rcases List.mem_append.1 hid with hid | hid
        · exact (hnow id hid).1
        · exact Nat.le_trans hkeeps.next_le (hfrom id hid)

/-- Lines keep their identity.  After any changes the numbers of the lines are distinct and below the
next one, and the index leads from them, and from nothing else, to the positions of their lines.  No
number has come in twice.  Of the lines at any time before, those that were not replaced since are
there with their numbers and in their order, and each is what it was, up to the target that a pending
jump got by its one patch.  A patch fails exactly if there is no pending jump with its number, and a
splice exactly if one of its numbers is not there. -/
theorem numbers_never_drift {before after : List Change} (hs : applyAll {} before = .ok s)
    (ht : s.applyAll after = .ok t) :
    t.ids.Nodup ∧ (∀ id ∈ t.ids, id < t.next)
    ∧ (∀ id pos, t.position? id = some pos ↔ ∃ line, t.items[pos]? = some ⟨id, line⟩)
    ∧ (arrivals {} (before ++ after)).Nodup
    ∧ s.Keeps after t
    ∧ (∀ id label, (∃ why, t.patch id label = .error why) ↔
      ∀ line, ⟨id, line⟩ ∈ t.items.toList → ∀ kind, line ≠ Code.jump kind "")
    ∧ ∀ edits, (∃ why, t.splice edits = .error why) ↔ ∃ e ∈ edits, e.1 ∉ t.ids := by
  obtain ⟨hsound, -⟩ := sound_empty.applyAll hs
  obtain ⟨hsound', hkeeps⟩ := hsound.applyAll ht
  exact ⟨hsound'.nodup, fun id => hsound'.id_lt, fun id pos => hsound'.indexed,
    sound_empty.nodup_arrivals.1, hkeeps, fun id label => hsound'.patch_fails_iff,
    fun edits => splice_fails_iff⟩

/-- A jump that gets its target after lines were put in before and behind it. -/
theorem numbers_never_drift_around_a_patch :
    let before : List Change := [.push (Code.jump .jz ""), .push (.inst .nop), .push (.label "c")]
    let after : List Change := [.splice [(1, .replace [.inst .ldbl, .inst .ldbh]),
      (0, .insertBefore [.label "a"])], .patch 0 "c", .push (.inst .hlt)]
    ∃ s t : Sequence, applyAll {} before = .ok s ∧ s.applyAll after = .ok t
      ∧ s.ids = [0, 1, 2] ∧ t.ids = [3, 0, 4, 5, 2, 6] ∧ t.ids.Nodup ∧ (∀ id ∈ t.ids, id < t.next)
      ∧ (∀ id pos, t.position? id = some pos ↔ ∃ line, t.items[pos]? = some ⟨id, line⟩)
      ∧ (arrivals {} (before ++ after)).Nodup ∧ s.Keeps after t
      ∧ (∀ id label, (∃ why, t.patch id label = .error why) ↔
        ∀ line, ⟨id, line⟩ ∈ t.items.toList → ∀ kind, line ≠ Code.jump kind "")
      ∧ ∀ edits, (∃ why, t.splice edits = .error why) ↔ ∃ e ∈ edits, e.1 ∉ t.ids := by
  intro before after
  let t : Sequence := ⟨#[⟨3, .label "a"⟩, ⟨0, Code.jump .jz "c"⟩, ⟨4, .inst .ldbl⟩, ⟨5, .inst .ldbh⟩,
    ⟨2, .label "c"⟩, ⟨6, .inst .hlt⟩], #[some 1, none, some 4, some 0, some 2, some 3, some 5], 7⟩
  have hs : applyAll {} before = .ok (ofLines [Code.jump .jz "", .inst .nop, .label "c"]) := rfl
  have ht : applyAll (ofLines [Code.jump .jz "", .inst .nop, .label "c"]) after = .ok t := by
    decide +kernel
  exact ⟨_, t, hs, ht, rfl, rfl, numbers_never_drift hs ht⟩

end Sequence

end NibblePascal
