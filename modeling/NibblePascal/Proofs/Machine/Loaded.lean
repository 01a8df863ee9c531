import NibblePascal.Proofs.Generation.Plan
import NibblePascal.Proofs.Machine.OpenCalls

/-!
# Plans that are loaded

The rooms of a plan stand one behind the other in the image of its lines, so a position belongs to
one room only.

* `P.place r a`: the position in the room `r` behind the pieces `a`; `P.stop r`: the position behind
  the room;
* `Plan.Loaded.holds_place`: what stands at a place; `Plan.Loaded.outside`: rooms have no position
  in common;
* `Plan.Loaded.inBody_iff`, `Plan.Loaded.inDispatch_iff`: the positions of a procedure that can be
  read off the lines are those of its room.
-/

namespace NibblePascal

namespace Plan

variable {P : Plan} {T : Territory} {graph : List (Option String × String)} {image : Image}
  {r r' : Room} {a b : List Piece} {p q ret : String} {pos : Nat}

/-! ### Rooms in their places -/

@[simp] theorem expand_nil (P : Plan) : P.expand [] = [] := rfl

@[simp] theorem expand_append (P : Plan) (a b : List Piece) :
    P.expand (a ++ b) = P.expand a ++ P.expand b := List.flatMap_append

@[simp] theorem expand_line (P : Plan) (l : Line) (b : List Piece) :
    P.expand (.line l :: b) = l :: P.expand b := rfl

/-- The position in a room behind the pieces `a` that its body begins with. -/
def place (P : Plan) (r : Room) (a : List Piece) : Nat :=
  Image.labelMap P.lines r.label + codeSize (P.expand a)

theorem place_append (P : Plan) (r : Room) (a b : List Piece) :
    P.place r (a ++ b) = P.place r a + codeSize (P.expand b) := by
  rw [place, expand_append, codeSize_append, ← Nat.add_assoc]
  rfl

/-- The position behind a room. -/
def stop (P : Plan) (r : Room) : Nat := P.place r (r.body ++ r.ending)

/-- The lines of the plan are loaded. -/
structure Loaded (P : Plan) (image : Image) : Prop where
  holds : image.Holds (Image.labelMap P.lines) 0 P.lines
  ends : image.ops[codeSize P.lines]? = none

/-- Rooms stand one behind the other. -/
theorem holds_rooms {rooms : List Room}
    (h : image.Holds (Image.labelMap P.lines) pos (P.expand (rooms.flatMap Room.pieces))) :
    (∀ r ∈ rooms, pos ≤ P.place r []
        ∧ image.Holds (Image.labelMap P.lines) (P.place r []) (P.expand (r.body ++ r.ending))
        ∧ P.stop r ≤ pos + codeSize (P.expand (rooms.flatMap Room.pieces)))
      ∧ rooms.Pairwise fun r r' => P.stop r ≤ P.place r' [] := by
  induction rooms generalizing pos with
  | nil => exact ⟨nofun, .nil⟩
  | cons r rooms ih =>
    have hsize : codeSize (P.expand r.pieces) = codeSize (P.expand (r.body ++ r.ending)) := rfl
    rw [List.flatMap_cons, expand_append] at h
    obtain ⟨⟨hlabel, hroom⟩, hrest⟩ := (Image.holds_append ..).1 h
    obtain ⟨hrooms, hpairs⟩ := ih hrest
    have hstart : P.place r [] = pos := hlabel
    have hstop : P.stop r = pos + codeSize (P.expand r.pieces) := by
      rw [stop, place, hlabel, hsize]
    rw [List.flatMap_cons, expand_append, codeSize_append, ← Nat.add_assoc]
    refine ⟨fun r' hr' => ?_, List.pairwise_cons.2 ⟨fun r' hr' => ?_, hpairs⟩⟩
    · obtain rfl | hr' := List.mem_cons.1 hr'
      · exact ⟨hstart.ge, hstart ▸ hroom, by omega⟩
      · obtain ⟨hlo, hholds, hhi⟩ := hrooms r' hr'
        exact ⟨by omega, hholds, hhi⟩
    · exact hstop.trans_le (hrooms r' hr').1

namespace Loaded

theorem rooms (h : P.Loaded image) : (∀ r ∈ P.rooms, codeSize P.head ≤ P.place r []
        ∧ image.Holds (Image.labelMap P.lines) (P.place r []) (P.expand (r.body ++ r.ending))
        ∧ P.stop r ≤ codeSize P.lines)
      ∧ P.rooms.Pairwise fun r r' => P.stop r ≤ P.place r' [] := by
  have hrooms := holds_rooms ((Image.holds_append ..).1 h.holds).2
  rw [Nat.zero_add, ← codeSize_append] at hrooms
  exact hrooms

/-- What stands at a place of a room. -/
theorem holds_place (h : P.Loaded image) (hr : r ∈ P.rooms) (hab : r.body ++ r.ending = a ++ b) :
    image.Holds (Image.labelMap P.lines) (P.place r a) (P.expand b) := by
  have hroom := (h.rooms.1 r hr).2.1
  rw [hab, expand_append] at hroom
  exact ((Image.holds_append ..).1 hroom).2

/-- A label of a room is at its place. -/
theorem labelMap_eq (h : P.Loaded image) (hr : r ∈ P.rooms) {t : String}
    (hab : r.body = a ++ .line (.label t) :: b) : Image.labelMap P.lines t = P.place r a :=
  (h.holds_place (b := .line (.label t) :: (b ++ r.ending)) hr (by simp [hab])).1

end Loaded

/-- A room is known by its name. -/
theorem Sound.eq_of_name (hs : P.Sound T graph) (hr : r ∈ P.rooms) (hr' : r' ∈ P.rooms)
    (h : r.name = r'.name) : r = r' :=
  List.inj_on_of_nodup_map hs.distinct hr hr' h

theorem place_nil_le (P : Plan) (r : Room) (a : List Piece) : P.place r [] ≤ P.place r a :=
  Nat.le_add_right ..

theorem place_le_body (P : Plan) (hab : r.body = a ++ b) : P.place r a ≤ P.place r r.body := by
  rw [hab, place_append]
  exact Nat.le_add_right ..

theorem place_lt_body (P : Plan) {i : Instruction} (hab : r.body = a ++ .line (.inst i) :: b) :
    P.place r a < P.place r r.body := by
  rw [hab, place_append, expand_line, codeSize_inst]
  omega

theorem place_body_le_stop (P : Plan) (r : Room) : P.place r r.body ≤ P.stop r := by
  rw [stop, place_append]
  exact Nat.le_add_right ..

theorem bodyStart_eq (P : Plan) (h : r.name = some p) : bodyStart P.lines p = P.place r [] := by
  rw [bodyStart, place, Room.label, h]
  rfl

theorem stop_eq (P : Plan) (h : r.name = some p) :
    P.stop r = P.place r r.body + codeSize ((Piece.finish p).expand P.selector P.returns) := by
  have hending : P.expand r.ending =
      (Piece.finish p).expand P.selector P.returns ++ [.endProc p] := by
    rw [Room.ending, h]
    rfl
  rw [stop, place_append, hending, codeSize_append]
  rfl

/-- A procedure ends with an instruction at least. -/
theorem place_body_lt_stop (P : Plan) (h : r.name = some p) : P.place r r.body < P.stop r := by
  obtain ⟨i, lines, hexpand⟩ := Piece.exists_expand_eq P.selector P.returns (.finish p) rfl
  rw [P.stop_eq h, hexpand, codeSize_inst]
  omega

/-- The program ends with its last room. -/
theorem Loaded.place_main (h : P.Loaded image) (hs : P.Sound T graph) (hr : r ∈ P.rooms)
    (hname : r.name = none) : P.place r r.body = codeSize P.lines := by
  obtain ⟨procedures, body, hrooms⟩ := hs.main
  obtain rfl : r = ⟨none, body⟩ := hs.eq_of_name hr (by simp [hrooms]) hname
  have hlines : P.lines = (P.head ++ P.expand (procedures.flatMap Room.pieces))
      ++ .label "@main" :: P.expand body := by
    rw [lines, pieces, hrooms]
    simp [Room.pieces, Room.ending, Room.label]
  obtain ⟨ρ, hρ⟩ : ∃ ρ, Image.labelMap P.lines = ρ := ⟨_, rfl⟩
  have hholds := h.holds
  rw [hρ, hlines] at hholds
  have hpos : ρ "@main" = _ := ((Image.holds_append ..).1 hholds).2.1
  rw [hlines, codeSize_append, codeSize_label, place, hρ]
  show ρ "@main" + _ = _
  rw [hpos, Nat.zero_add]

/-- What stands in another room, or right behind its body, is outside the room of a procedure. -/
theorem Loaded.outside (h : P.Loaded image) (hs : P.Sound T graph) (hr : r ∈ P.rooms)
    (hr' : r' ∈ P.rooms) (hp : r.name = some p) (hne : r'.name ≠ some p)
    (hlo : P.place r' [] ≤ pos) (hhi : pos ≤ P.place r' r'.body ∨ pos < P.stop r') :
    pos < P.place r [] ∨ P.stop r ≤ pos := by
  have hpairs := h.rooms.2
  cases hname : r'.name with
  | none =>
    -- The room of the program is the last one.
    obtain ⟨procedures, body, hrooms⟩ := hs.main
    rw [hrooms] at hr
    have hmain : r' = ⟨none, body⟩ := hs.eq_of_name hr' (by simp [hrooms]) hname
    rw [hrooms] at hpairs
    obtain hr | hr := List.mem_append.1 hr
    · have hstop := (List.pairwise_append.1 hpairs).2.2 r hr r' (by simp [hmain])
      exact .inr (hstop.trans hlo)
    · rw [List.mem_singleton.1 hr] at hp
      cases hp
  | some q =>
    have hlt : pos < P.stop r' := hhi.elim (·.trans_lt (P.place_body_lt_stop hname)) id
    have hsymm : Std.Symm fun r r' => P.stop r ≤ P.place r' [] ∨ P.stop r' ≤ P.place r [] :=
      ⟨fun _ _ => Or.symm⟩
    have hor : P.rooms.Pairwise fun r r' => P.stop r ≤ P.place r' [] ∨ P.stop r' ≤ P.place r [] :=
      hpairs.imp Or.inl
    have hapart : P.stop r ≤ P.place r' [] ∨ P.stop r' ≤ P.place r [] := by
      refine hor.forall hr hr' ?_
      rintro rfl
      exact hne hp
    obtain hle | hle := hapart
    · exact .inr (hle.trans hlo)
    · exact .inl (hlt.trans_le hle)

/-! ### Procedures in the lines -/

end Plan

theorem Code.unmarked_returnCascade (labels : List String) : Unmarked (returnCascade labels) := by
  fun_induction returnCascade labels <;> simp_all [Line.IsStraight.ne_endProc]

/-- Calls and returns have no marks in them. -/
theorem Piece.unmarked_expand (selector : String → Var) (returns : String → List String)
    (piece : Piece) (h : piece.isLine = false) : Unmarked (piece.expand selector returns) := by
  cases piece with
  | line l => cases h
  | call p ret =>
    rw [expand, Unmarked.append]
    exact ⟨by split <;> simp [AllStraight.unmarked], by simp⟩
  | finish p =>
    rw [expand]
    split
    · simp
    · unfold Code.returnDispatch
      split <;> simp [Line.IsStraight.ne_endProc, Code.unmarked_returnCascade]

/-- A jump to a procedure is the jump of a call, if it is no line of its own. -/
theorem Piece.eq_call_of_mem_expand {selector : String → Var} {returns : String → List String}
    {p : String} (hreturns : ∀ q, Gen.procedureLabel p ∉ returns q) {piece : Piece}
    (h : Code.jump .jmp (Gen.procedureLabel p) ∈ piece.expand selector returns) :
    piece = .line (Code.jump .jmp (Gen.procedureLabel p)) ∨ ∃ ret, piece = .call p ret := by
  have htarget : Gen.procedureLabel p ∈ jumpTargets (piece.expand selector returns) :=
    List.mem_filterMap.2 ⟨_, h, rfl⟩
  have hplain := (Piece.mem_jumpTargets_expand htarget).resolve_right fun ⟨q, hq⟩ => hreturns q hq
  cases piece with
  | line l =>
    rw [expand, List.mem_singleton] at h
    exact .inl (h ▸ rfl)
  | call q ret =>
    obtain rfl := Gen.procedureLabel_injective (List.mem_singleton.1 hplain)
    exact .inr ⟨ret, rfl⟩
  | finish q => cases hplain

namespace Plan

variable {P : Plan} {T : Territory} {graph : List (Option String × String)} {image : Image}
  {r : Room} {p ret : String} {pos : Nat}

theorem mem_expand_endProc (P : Plan) {code : List Piece} :
    .endProc p ∈ P.expand code ↔ .line (.endProc p) ∈ code := by
  rw [expand, List.mem_flatMap]
  constructor
  · rintro ⟨piece, hpiece, h⟩
    cases piece with
    | line l =>
      rw [Piece.expand, List.mem_singleton] at h
      exact h ▸ hpiece
    | call q ret => exact absurd rfl (Piece.unmarked_expand _ _ (.call q ret) rfl _ h p)
    | finish q => exact absurd rfl (Piece.unmarked_expand _ _ (.finish q) rfl _ h p)
  · exact fun h => ⟨_, h, .head _⟩

/-- The return labels of the pieces can be read off their lines. -/
theorem returnLabels_expand (P : Plan) {code : List Piece} (hanswered : Piece.Answered code)
    (hjump : .line (Code.jump .jmp (Gen.procedureLabel p)) ∉ code)
    (hreturns : ∀ q, Gen.procedureLabel p ∉ P.returns q) :
    returnLabels p (P.expand code) = Piece.returns code p := by
  induction code with
  | nil => rfl
  | cons piece code ih =>
    rw [List.mem_cons, not_or] at hjump
    -- All that does not call `p` is passed over.
    have hpass : (∀ ret, piece ≠ .call p ret) → returnLabels p (P.expand (piece :: code)) =
        returnLabels p (P.expand code) := by
      intro hcall
      refine returnLabels_append (fun hmem => ?_) _
      obtain heq | ⟨ret, heq⟩ := Piece.eq_call_of_mem_expand hreturns hmem
      · exact hjump.1 heq.symm
      · exact hcall ret heq
    cases piece with
    | line l =>
      rw [hpass nofun, ih hanswered hjump.2]
      rfl
    | finish q =>
      rw [hpass nofun, ih hanswered hjump.2]
      rfl
    | call q ret =>
      obtain ⟨⟨code, rfl⟩, hanswered⟩ := hanswered
      have hrest := ih hanswered hjump.2
      by_cases hq : q = p
      · subst hq
        have hselect : Code.jump .jmp (Gen.procedureLabel q) ∉
            if 1 < (P.returns q).length then
              Code.selectCall (P.selector q) ((P.returns q).idxOf ret) else [] := by
          split <;> simp [Code.selectCall, Code.jump, Code.store]
        have hlines : P.expand (.call q ret :: .line (.label ret) :: code) =
            (if 1 < (P.returns q).length then
              Code.selectCall (P.selector q) ((P.returns q).idxOf ret) else [])
              ++ Code.jump .jmp (Gen.procedureLabel q) :: .label ret :: P.expand code :=
          List.append_assoc ..
        rw [hlines, returnLabels_append hselect, returnLabels_call]
        show ret :: returnLabels q (P.expand (.line (.label ret) :: code)) = _
        rw [hrest]
        simp [Piece.returns]
      · rw [hpass fun ret' heq => hq (Piece.call.inj heq).1, hrest]
        simp [Piece.returns, hq]

namespace Sound

theorem mem_prologue (hs : P.Sound T graph) {l : Line} (hl : l ∈ P.head) : l ∈ Code.prologue := by
  rw [Code.prologue_eq]
  obtain heq | ⟨heq, -⟩ := hs.head
  · rwa [← heq]
  · rw [heq] at hl
    exact List.mem_append_left _ hl

theorem notMem_head (hs : P.Sound T graph) : .endProc p ∉ P.head := by
  have hprologue : ∀ l ∈ Code.prologue, l.ended? = none := by decide
  intro h
  cases hprologue _ (hs.mem_prologue h)

theorem mem_procedureNames_iff (hs : P.Sound T graph) :
    p ∈ procedureNames P.lines ↔ p ∈ P.procedures := by
  rw [mem_procedureNames, lines, List.mem_append, or_iff_right hs.notMem_head, mem_expand_endProc,
    pieces, List.mem_flatMap, mem_procedures]
  constructor
  · rintro ⟨r, hr, hmem⟩
    obtain heq | hbody | ⟨q, hname, heq | heq⟩ := Room.mem_pieces.1 hmem
    · cases heq
    · exact absurd hbody ((hs.neat r hr).unmarked p)
    · cases heq
    · cases heq
      exact ⟨r, hr, hname⟩
  · rintro ⟨r, hr, hname⟩
    exact ⟨r, hr, Room.mem_pieces.2 (.inr (.inr ⟨p, hname, .inr rfl⟩))⟩

/-- The return labels are numbered. -/
theorem exists_labelName (hs : P.Sound T graph) (h : ret ∈ P.returns p) :
    ∃ n, ret = Code.labelName n := by
  obtain ⟨r, hr, hcall⟩ := Room.mem_body_of_call (Piece.mem_returns.1 h)
  exact (hs.neat r hr).exists_ret hcall

theorem answered_pieces (hs : P.Sound T graph) : Piece.Answered P.pieces := by
  have hrooms := hs.neat
  unfold pieces
  generalize P.rooms = rooms at hrooms
  induction rooms with
  | nil => trivial
  | cons r rooms ih =>
    have hending : Piece.Answered r.ending := by
      unfold Room.ending
      split <;> trivial
    exact Piece.Answered.append (a := r.pieces)
      ((hrooms r (.head _)).answered.append hending) (ih fun r hr => hrooms r (.tail _ hr))

/-- Only calls jump to procedures. -/
theorem jump_notMem_pieces (hs : P.Sound T graph) :
    .line (Code.jump .jmp (Gen.procedureLabel p)) ∉ P.pieces := by
  intro h
  obtain ⟨r, hr, hmem⟩ := List.mem_flatMap.1 h
  obtain heq | hbody | ⟨q, -, heq | heq⟩ := Room.mem_pieces.1 hmem
  · cases heq
  · have hneat := hs.neat r hr
    obtain ⟨n, hn⟩ := hneat.labels _ (hneat.jumps _ _ hbody)
    exact Gen.procedureLabel_ne_labelName p n hn
  · cases heq
  · cases heq

theorem returnLabels_eq (hs : P.Sound T graph) (p : String) :
    returnLabels p P.lines = P.returns p := by
  have hhead : Code.jump .jmp (Gen.procedureLabel p) ∉ P.head := by
    have hprologue : ∀ l ∈ Code.prologue, l.target? = none ∨ l.target? = some "@main" := by decide
    intro h
    obtain heq | heq := hprologue _ (hs.mem_prologue h)
    · cases heq
    · exact Gen.procedureLabel_ne_main p (Option.some.inj heq)
  rw [lines, returnLabels_append hhead]
  refine P.returnLabels_expand hs.answered_pieces hs.jump_notMem_pieces fun q hmem => ?_
  obtain ⟨n, hn⟩ := hs.exists_labelName hmem
  exact Gen.procedureLabel_ne_labelName p n hn

end Sound

namespace Loaded

/-- The lines of a procedure. -/
theorem exists_lines (h : P.Loaded image) (hs : P.Sound T graph) (hr : r ∈ P.rooms)
    (hname : r.name = some p) : ∃ before after,
      P.lines = before ++ .label (Gen.procedureLabel p) :: (P.expand (r.body ++ [.finish p])
        ++ .endProc p :: after)
      ∧ .endProc p ∉ before ++ .label (Gen.procedureLabel p) :: P.expand (r.body ++ [.finish p])
      ∧ P.place r [] = codeSize before := by
  obtain ⟨rooms, rooms', hrooms⟩ := List.append_of_mem hr
  have hlabel : r.label = Gen.procedureLabel p := by rw [Room.label, hname]
  have hlines : P.lines = (P.head ++ P.expand (rooms.flatMap Room.pieces))
      ++ .label (Gen.procedureLabel p) :: (P.expand (r.body ++ [.finish p])
        ++ .endProc p :: P.expand (rooms'.flatMap Room.pieces)) := by
    have hpieces : r.pieces = .line (.label (Gen.procedureLabel p)) :: (r.body ++ [.finish p])
        ++ [.line (.endProc p)] := by
      simp [Room.pieces, Room.ending, hname, hlabel]
    rw [lines, pieces, hrooms, List.flatMap_append, List.flatMap_cons, hpieces]
    simp only [expand_append, expand_line, expand_nil]
    simp
  refine ⟨_, _, hlines, fun hmem => ?_, ?_⟩
  · -- The end of a procedure is marked at the end of its room, and the names are different.
    rw [List.append_assoc] at hmem
    obtain hmem | hmem := List.mem_append.1 hmem
    · exact hs.notMem_head hmem
    obtain hmem | hmem := List.mem_append.1 hmem
    · obtain ⟨r', hr', hmem⟩ := List.mem_flatMap.1 (P.mem_expand_endProc.1 hmem)
      have hmem' : r' ∈ P.rooms := by simp [hrooms, hr']
      obtain heq | hbody | ⟨q, hname', heq | heq⟩ := Room.mem_pieces.1 hmem
      · cases heq
      · exact (hs.neat r' hmem').unmarked p hbody
      · cases heq
      · cases heq
        have hnodup := hs.distinct
        rw [hrooms, List.map_append, List.nodup_append] at hnodup
        exact hnodup.2.2 _ (List.mem_map_of_mem hr') _ (List.mem_map_of_mem (List.mem_cons_self ..))
          (hname'.trans hname.symm)
    · rw [← expand_line, mem_expand_endProc] at hmem
      simp [(hs.neat r hr).unmarked p] at hmem
  · obtain ⟨ρ, hρ⟩ : ∃ ρ, Image.labelMap P.lines = ρ := ⟨_, rfl⟩
    have hholds := h.holds
    rw [hρ, hlines] at hholds
    have hpos : ρ (Gen.procedureLabel p) = _ := ((Image.holds_append ..).1 hholds).2.1
    rw [place, hρ, hlabel, hpos, Nat.zero_add]
    rfl

theorem bodyEnd_eq (h : P.Loaded image) (hs : P.Sound T graph) (hr : r ∈ P.rooms)
    (hname : r.name = some p) : bodyEnd P.lines p = P.stop r := by
  obtain ⟨before, after, hlines, hmark, hstart⟩ := h.exists_lines hs hr hname
  have hstop : P.stop r = P.place r [] + codeSize (P.expand (r.body ++ [.finish p])) := by
    have hfinish : P.expand [.finish p] = (Piece.finish p).expand P.selector P.returns :=
      List.append_nil _
    rw [P.stop_eq hname, expand_append, codeSize_append, hfinish, ← Nat.add_assoc]
    rfl
  rw [hlines, ← List.cons_append, ← List.append_assoc, NibblePascal.bodyEnd_eq hmark, hstop,
    codeSize_append, hstart]
  rfl

theorem inBody_iff (h : P.Loaded image) (hs : P.Sound T graph) (hr : r ∈ P.rooms)
    (hname : r.name = some p) : InBody P.lines p pos ↔ P.place r [] ≤ pos ∧ pos < P.stop r := by
  rw [InBody, P.bodyStart_eq hname, h.bodyEnd_eq hs hr hname]

/-- Where a procedure that is called returns. -/
theorem dispatchStart_eq (h : P.Loaded image) (hs : P.Sound T graph) (hr : r ∈ P.rooms)
    (hname : r.name = some p) (hreturns : P.returns p ≠ []) :
    dispatchStart P.lines p = P.place r r.body := by
  have hstop := P.stop_eq hname
  rw [Piece.expand, if_neg (by simpa using hreturns)] at hstop
  rw [dispatchStart, h.bodyEnd_eq hs hr hname, hs.returnLabels_eq,
    codeSize_returnDispatch _ (P.selector p)]
  omega

theorem inDispatch_iff (h : P.Loaded image) (hs : P.Sound T graph) (hr : r ∈ P.rooms)
    (hname : r.name = some p) :
    InDispatch P.lines p pos ↔ P.returns p ≠ [] ∧ P.place r r.body ≤ pos ∧ pos < P.stop r := by
  by_cases hreturns : P.returns p = []
  · rw [InDispatch, dispatchStart, hs.returnLabels_eq, hreturns]
    simp [Code.returnDispatch]
  · rw [InDispatch, h.dispatchStart_eq hs hr hname hreturns, h.bodyEnd_eq hs hr hname,
      and_iff_right hreturns]

theorem inBody_of_inDispatch (h : P.Loaded image) (hs : P.Sound T graph) (hp : p ∈ P.procedures)
    (hpos : InDispatch P.lines p pos) : InBody P.lines p pos := by
  obtain ⟨r, hr, hname⟩ := mem_procedures.1 hp
  obtain ⟨-, hlo, hhi⟩ := (h.inDispatch_iff hs hr hname).1 hpos
  exact (h.inBody_iff hs hr hname).2 ⟨(P.place_nil_le r r.body).trans hlo, hhi⟩

/-- A position in a room, or right behind its body, is in no other procedure. -/
theorem name_eq (h : P.Loaded image) (hs : P.Sound T graph) (hr : r ∈ P.rooms)
    (hlo : P.place r [] ≤ pos) (hhi : pos ≤ P.place r r.body ∨ pos < P.stop r)
    (hp : p ∈ P.procedures) (hpos : InBody P.lines p pos) : r.name = some p := by
  by_contra hne
  obtain ⟨r', hr', hname⟩ := mem_procedures.1 hp
  rw [h.inBody_iff hs hr' hname] at hpos
  have hout := h.outside hs hr' hr hname hne hlo hhi
  omega

/-- No procedure returns in the body of a room. -/
theorem not_inDispatch (h : P.Loaded image) (hs : P.Sound T graph) (hr : r ∈ P.rooms)
    (hlo : P.place r [] ≤ pos) (hhi : pos < P.place r r.body) (hp : p ∈ P.procedures) :
    ¬ InDispatch P.lines p pos := by
  intro hpos
  have hname := h.name_eq hs hr hlo (.inl hhi.le) hp (h.inBody_of_inDispatch hs hp hpos)
  have hback := ((h.inDispatch_iff hs hr hname).1 hpos).2.1
  omega

/-- The lines that a program starts with are in no procedure. -/
theorem not_inBody_head (h : P.Loaded image) (hs : P.Sound T graph) (hpos : pos < codeSize P.head)
    (hp : p ∈ P.procedures) : ¬ InBody P.lines p pos := by
  obtain ⟨r, hr, hname⟩ := mem_procedures.1 hp
  rw [h.inBody_iff hs hr hname]
  have hstart := (h.rooms.1 r hr).1
  omega

end Loaded

end Plan

end NibblePascal
