import NibblePascal.Proofs.Generation.Rooms

/-!
# The plan of a program

A plan lays a program out: the lines that it starts with, and behind them its rooms.  Programs have
a plan before they are tidied and afterwards.

* `Plan`, `Plan.lines`: a plan and its lines;
* `Plan.Sound`: the rooms are neat and have different names, every call is one of the given calls
  and has its room, and no room touches a selector;
* `Program.Coded.exists_plan` and `Program.Coded.exists_plan_tidy`: the lines of a program are those
  of a sound plan, and so are the tidied ones, with rooms that are left of the rooms of the program.
-/

namespace NibblePascal

/-- How a program is laid out. -/
structure Plan where
  head : List Line
  rooms : List Room
  selector : String → Var

namespace Plan

/-- The code of all rooms. -/
def pieces (P : Plan) : List Piece := P.rooms.flatMap Room.pieces

/-- The return labels of the calls of a procedure. -/
def returns (P : Plan) : String → List String := Piece.returns P.pieces

/-- The lines of pieces. -/
def expand (P : Plan) (code : List Piece) : List Line :=
  code.flatMap (Piece.expand P.selector P.returns)

/-- The lines of the program. -/
def lines (P : Plan) : List Line := P.head ++ P.expand P.pieces

/-- The procedures that have rooms. -/
def procedures (P : Plan) : List String := P.rooms.filterMap Room.name

theorem mem_procedures {P : Plan} {p : String} :
    p ∈ P.procedures ↔ ∃ r ∈ P.rooms, r.name = some p := List.mem_filterMap

/-- A plan with which calls can be followed: `graph` has all calls, and `T` the cells that rooms use
themselves. -/
structure Sound (P : Plan) (T : Territory) (graph : List (Option String × String)) : Prop where
  neat : ∀ r ∈ P.rooms, r.Neat T
  distinct : (P.rooms.map Room.name).Nodup
  main : ∃ procedures body, P.rooms = procedures ++ [⟨none, body⟩]
  called : ∀ r ∈ P.rooms, ∀ p ret, .call p ret ∈ r.body → (r.name, p) ∈ graph ∧ p ∈ P.procedures
  limited : ∀ p, (P.returns p).length ≤ Code.maxCalls
  placed : T.Placed
  selector : ∀ p ∈ P.procedures, (P.selector p).Placed ∧ ¬ T.Reaches (P.selector p).addr
  apart : ∀ p ∈ P.procedures, ∀ q ∈ P.procedures, p ≠ q →
    (P.selector p).addr ≠ (P.selector q).addr
  head : P.head = Code.setup ++ [Code.jump .jmp "@main"]
    ∨ P.head = Code.setup ∧ ∃ body, P.rooms = [⟨none, body⟩]

end Plan

/-! ### Rooms in a row -/

theorem exists_rel_of_mem {α β : Type} {R : α → β → Prop} {xs : List α} {ys : List β}
    (h : List.Forall₂ R xs ys) {x : α} (hx : x ∈ xs) : ∃ y ∈ ys, R x y := by
  induction h with
  | nil => cases hx
  | cons hR _ ih =>
    obtain rfl | hx := List.mem_cons.1 hx
    · exact ⟨_, .head _, hR⟩
    · obtain ⟨y, hy, hrel⟩ := ih hx
      exact ⟨y, .tail _ hy, hrel⟩

namespace Room

theorem mem_pieces {r : Room} {piece : Piece} : piece ∈ r.pieces ↔
    piece = .line (.label r.label) ∨ piece ∈ r.body
      ∨ ∃ p, r.name = some p ∧ (piece = .finish p ∨ piece = .line (.endProc p)) := by
  rw [pieces, List.mem_cons, List.mem_append, ending]
  cases r.name <;> simp

theorem mem_body_of_call {rooms : List Room} {p ret : String}
    (h : .call p ret ∈ rooms.flatMap pieces) : ∃ r ∈ rooms, .call p ret ∈ r.body := by
  obtain ⟨r, hr, hmem⟩ := List.mem_flatMap.1 h
  exact ⟨r, hr, by simpa using mem_pieces.1 hmem⟩

theorem mem_body_of_release {rooms : List Room} {addr : Nat}
    (h : .line (.release addr) ∈ rooms.flatMap pieces) :
    ∃ r ∈ rooms, .line (.release addr) ∈ r.body := by
  obtain ⟨r, hr, hmem⟩ := List.mem_flatMap.1 h
  exact ⟨r, hr, by simpa using mem_pieces.1 hmem⟩

/-- The first room is left of the second one when some loose lines are taken out. -/
def Thins (r' r : Room) : Prop := r'.name = r.name ∧ Thinned r'.body r.body

theorem Thins.refl (r : Room) : r.Thins r := ⟨rfl, .refl _⟩

/-- A room is thinned in its body only. -/
theorem exists_thins {a : List Piece} {r : Room} (h : Thinned a r.pieces) :
    ∃ r' : Room, a = r'.pieces ∧ r'.Thins r := by
  obtain ⟨rest, rfl, hrest⟩ := h.of_cons rfl
  obtain ⟨body, last, rfl, hbody, hlast⟩ := hrest.of_append
  refine ⟨⟨r.name, body⟩, ?_, rfl, hbody⟩
  have hend : last = r.ending := by
    unfold ending at hlast ⊢
    cases hname : r.name with
    | none =>
      rw [hname] at hlast
      cases hlast
      rfl
    | some p =>
      rw [hname] at hlast
      obtain ⟨mark, rfl, hmark⟩ := hlast.of_cons rfl
      obtain ⟨none, rfl, hnone⟩ := hmark.of_cons rfl
      cases hnone
      rfl
  rw [hend]
  rfl

/-- Rooms in a row are thinned apart. -/
theorem exists_forall₂_thins {code : List Piece} {rooms : List Room}
    (h : Thinned code (rooms.flatMap pieces)) :
    ∃ rooms' : List Room, code = rooms'.flatMap pieces ∧ List.Forall₂ Thins rooms' rooms := by
  induction rooms generalizing code with
  | nil =>
    cases h
    exact ⟨[], rfl, .nil⟩
  | cons r rooms ih =>
    obtain ⟨a, b, rfl, ha, hb⟩ := Thinned.of_append h
    obtain ⟨r', rfl, hr⟩ := exists_thins ha
    obtain ⟨rooms', rfl, hrooms⟩ := ih hb
    exact ⟨r' :: rooms', rfl, .cons hr hrooms⟩

theorem map_name_of_thins {rooms rooms' : List Room} (h : List.Forall₂ Thins rooms' rooms) :
    rooms'.map name = rooms.map name := by
  induction h with
  | nil => rfl
  | cons hr _ ih => rw [List.map_cons, List.map_cons, hr.1, ih]

/-- Where a room begins, no numbered label comes first. -/
theorem leadingLabel?_ne (rooms : List Room) (n : Nat) :
    leadingLabel? ((rooms.flatMap pieces).map Piece.plain) ≠ some (Code.labelName n) := by
  cases rooms with
  | nil => nofun
  | cons r rooms =>
    intro h
    have hlabel : r.label = Code.labelName n := Option.some.inj h
    unfold label at hlabel
    split at hlabel
    · exact Gen.procedureLabel_ne_labelName _ _ hlabel
    · exact Code.labelName_ne_main n hlabel.symm

variable {T : Territory} {r : Room} {returns : String → List String} {p ret : String}

/-- The return label of a call is a numbered label of the room. -/
theorem Neat.exists_ret (h : r.Neat T) (hp : .call p ret ∈ r.body) :
    ∃ n, ret = Code.labelName n := by
  obtain ⟨a, b, hbody⟩ := List.append_of_mem hp
  obtain ⟨b', rfl⟩ := (hbody ▸ h.answered).of_append
  exact h.labels ret (by simp [hbody])

/-- A room releases only cells of its territory. -/
theorem Neat.owns_of_release (h : r.Neat T) {addr : Nat} (hmem : .line (.release addr) ∈ r.body) :
    T.Owns addr := by
  obtain ⟨a, b, hbody⟩ := List.append_of_mem hmem
  have hguarded := h.guarded
  rw [hbody, List.map_append] at hguarded
  obtain ⟨bank, -, howns, -⟩ := Territory.guards_append.1 hguarded
  exact howns

/-- A call does not jump to the label behind it. -/
theorem Neat.sealed_append (h : r.Neat T) {code : List Piece} (hcode : Piece.Sealed returns code)
    {b : List Piece} (hb : ∃ a, r.body = a ++ b) : Piece.Sealed returns (b ++ code) := by
  induction b with
  | nil => exact hcode
  | cons piece b ih =>
    obtain ⟨a, ha⟩ := hb
    have hrest := ih ⟨a ++ [piece], by simp [ha]⟩
    cases piece with
    | line l => exact hrest
    | call p ret =>
      have hcall : .call p ret ∈ r.body := by simp [ha]
      obtain ⟨n, rfl⟩ := h.exists_ret hcall
      obtain ⟨b', rfl⟩ := (ha ▸ h.answered).of_append
      refine ⟨fun heq => ?_, hrest⟩
      exact Gen.procedureLabel_ne_labelName p n (Option.some.inj heq).symm
    | finish p => exact absurd (by simp [ha]) (h.unfinished p)

theorem sealed_flatMap {rooms : List Room} (h : ∀ r ∈ rooms, r.Neat T)
    (hreturns : ∀ p, ∀ ret ∈ returns p, ∃ n, ret = Code.labelName n) :
    Piece.Sealed returns (rooms.flatMap pieces) := by
  induction rooms with
  | nil => trivial
  | cons r rooms ih =>
    have hrest := ih fun r hr => h r (.tail _ hr)
    rw [List.flatMap_cons, pieces, List.cons_append, List.append_assoc]
    refine (h r (.head _)).sealed_append ?_ ⟨[], rfl⟩
    unfold ending
    split
    · refine ⟨fun ret hret heq => ?_, hrest⟩
      obtain ⟨n, rfl⟩ := hreturns _ ret hret
      exact leadingLabel?_ne rooms n heq
    · exact hrest

end Room

namespace Piece

theorem mem_returns {code : List Piece} {p ret : String} :
    ret ∈ returns code p ↔ .call p ret ∈ code := by
  unfold returns
  rw [List.mem_filterMap]
  constructor
  · rintro ⟨piece, hpiece, h⟩
    cases piece with
    | call q ret' =>
      simp only [Option.ite_none_right_eq_some, Option.some.injEq] at h
      obtain ⟨rfl, rfl⟩ := h
      exact hpiece
    | line | finish => cases h
  · exact fun h => ⟨_, h, if_pos rfl⟩

end Piece

/-! ### Programs -/

/-- The procedures of rooms end there, and nowhere else. -/
theorem Room.finishes_flatMap {rooms : List Room} (h : ∀ r ∈ rooms, ∀ p, .finish p ∉ r.body) :
    Piece.finishes (rooms.flatMap Room.pieces) = rooms.filterMap Room.name := by
  induction rooms with
  | nil => rfl
  | cons r rooms ih =>
    have hnone : Piece.finishes r.body = [] := List.filterMap_eq_nil_iff.2 fun piece hp => by
      cases piece with
      | finish p => exact absurd hp (h r (.head _) p)
      | line | call => rfl
    rw [List.flatMap_cons, Piece.finishes_append, ih fun r hr => h r (.tail _ hr), Room.pieces,
      Piece.finishes_line, Piece.finishes_append, hnone, List.nil_append, Room.ending,
      List.filterMap_cons]
    cases r.name with
    | none => rfl
    | some p => rfl

/-- The headings of a block are those of the procedures that it declares. -/
theorem Block.Coded.map_name_headings {label name : String} {o o' : Outline} {b : Block}
    {code : List Piece} (h : Block.Coded label name o b code o') :
    o'.headings.map (·.name) = o.headings.map (·.name) ++ b.procedures := by
  induction h with
  | code => exact (List.append_nil _).symm
  | scalar _ _ _ ih | array _ _ _ ih => exact ih
  | procedure _ _ _ _ _ ihb ihr =>
    rw [ihr, Outline.leave, ihb]
    simp [Outline.openBody, Block.procedures]

/-- The rooms of a program: those of its procedures, and a last one for the program itself. -/
structure Program.InRooms (p : Program) (code : List Piece) (o : Outline) (rooms : List Room) :
    Prop where
  code_eq : code = rooms.flatMap Room.pieces
  main : ∃ procedures body, rooms = procedures ++ [⟨none, body⟩]
    ∧ ∀ r ∈ procedures, ∃ q, r.name = some q
  holds : ∀ r ∈ rooms, r.Holds (p.block.calls none) o

theorem Program.InRooms.mem_code {p : Program} {code : List Piece} {o : Outline}
    {rooms : List Room} (h : p.InRooms code o rooms) {r : Room} (hr : r ∈ rooms) {piece : Piece}
    (hpiece : piece ∈ r.body) : piece ∈ code := by
  rw [h.code_eq]
  exact List.mem_flatMap.2 ⟨r, hr, Room.mem_pieces.2 (.inr (.inl hpiece))⟩

/-- The label of the program comes first only where no procedure does. -/
theorem Program.InRooms.eq_singleton {p : Program} {code : List Piece} {o : Outline}
    {rooms : List Room} (h : p.InRooms code o rooms)
    (hlabel : leadingLabel? (code.map Piece.plain) = some "@main") :
    ∃ body, rooms = [⟨none, body⟩] := by
  obtain ⟨procedures, body, hrooms, hnamed⟩ := h.main
  cases procedures with
  | nil => exact ⟨body, hrooms⟩
  | cons r procedures =>
    obtain ⟨q, hq⟩ := hnamed r (.head _)
    rw [h.code_eq, hrooms] at hlabel
    have hmain : r.label = "@main" := Option.some.inj hlabel
    rw [Room.label, hq] at hmain
    exact absurd hmain (Gen.procedureLabel_ne_main q)

namespace Program.Coded

variable {p : Program} {code : List Piece} {o : Outline} {rooms rooms' : List Room}

theorem isTidy (h : p.Coded code o) (hfit : p.block.arraysFit = true) : o.Tidy :=
  h.block.keeps Outline.tidy_invariant hfit Outline.tidy_start

theorem isSelective (h : p.Coded code o) (hfit : p.block.arraysFit = true) : o.Selective :=
  h.block.keeps Outline.selective_invariant hfit Outline.selective_start

theorem finishes_eq (h : p.Coded code o) (hfit : p.block.arraysFit = true)
    (hrooms : p.InRooms code o rooms) : Piece.finishes code = rooms.filterMap Room.name := by
  rw [hrooms.code_eq]
  exact Room.finishes_flatMap fun r hr => ((hrooms.holds r hr).neat (h.isSelective hfit)).unfinished

/-- The procedures that have rooms are those that were declared. -/
theorem mem_filterMap_name (h : p.Coded code o) (hfit : p.block.arraysFit = true)
    (hrooms : p.InRooms code o rooms) (hthins : List.Forall₂ Room.Thins rooms' rooms)
    {name : String} : name ∈ rooms'.filterMap Room.name ↔ name ∈ o.headings.map (·.name) := by
  obtain ⟨hs, hheadings, hperm⟩ := h.block.finishes_perm
  have hnames : rooms'.filterMap Room.name = rooms.filterMap Room.name := by
    rw [← Function.id_comp Room.name, ← List.filterMap_map, Room.map_name_of_thins hthins,
      List.filterMap_map]
  rw [hnames, ← h.finishes_eq hfit hrooms, hperm.mem_iff, hheadings]
  rfl

theorem nodup_name (h : p.Coded code o) (hfit : p.block.arraysFit = true)
    (hrooms : p.InRooms code o rooms) : (rooms.map Room.name).Nodup := by
  have hnodup : (rooms.filterMap Room.name).Nodup := by
    rw [← h.finishes_eq hfit hrooms]
    exact nodup_finishes h.block
  obtain ⟨procedures, body, rfl, hnamed⟩ := hrooms.main
  rw [List.filterMap_append] at hnodup
  have hpairs := List.pairwise_filterMap.1 (List.nodup_append.1 hnodup).1
  rw [List.map_append, List.nodup_append]
  refine ⟨List.pairwise_map.2 (hpairs.imp_of_mem fun hr hr' hne heq => ?_), by simp, ?_⟩
  · obtain ⟨q, hq⟩ := hnamed _ hr
    exact hne q hq q (heq.symm.trans hq) rfl
  · intro name hname other hother
    obtain ⟨r, hr, rfl⟩ := List.mem_map.1 hname
    obtain ⟨q, hq⟩ := hnamed r hr
    rw [List.mem_singleton.1 hother, hq]
    nofun

/-- What is called has been declared. -/
theorem mem_headings_of_call (h : p.Coded code o) {name ret : String}
    (hcall : .call name ret ∈ code) : name ∈ o.headings.map (·.name) :=
  (h.block.sound start_sound).called (List.mem_append_right _ hcall)

theorem exists_heading (h : p.Coded code o) {name : String}
    (hname : name ∈ o.headings.map (·.name)) :
    ∃ q ∈ o.headings, q.name = name ∧ o.selector name = q.selector := by
  obtain ⟨q, hq, rfl⟩ := List.mem_map.1 hname
  exact ⟨q, hq, rfl, Outline.selector_eq (h.block.sound start_sound).distinct hq⟩

theorem limited (h : p.Coded code o) (name : String) :
    (Piece.returns code name).length ≤ Code.maxCalls := by
  by_cases hname : name ∈ o.headings.map (·.name)
  · obtain ⟨q, hq, rfl⟩ := List.mem_map.1 hname
    exact h.calls q hq
  · have hnil : Piece.returns code name = [] := by
      refine List.eq_nil_iff_forall_not_mem.2 fun ret hret => hname ?_
      exact h.mem_headings_of_call (Piece.mem_returns.1 hret)
    rw [hnil]
    exact Nat.zero_le _

/-- Thinned rooms make a sound plan. -/
theorem sound_of_thins (h : p.Coded code o) (hfit : p.block.arraysFit = true)
    (hrooms : p.InRooms code o rooms) (hthins : List.Forall₂ Room.Thins rooms' rooms)
    (hreturns : ∀ name, Piece.returns (rooms'.flatMap Room.pieces) name = Piece.returns code name)
    {head : List Line} (hhead : head = Code.setup ++ [Code.jump .jmp "@main"]
      ∨ head = Code.setup ∧ ∃ body, rooms' = [⟨none, body⟩]) :
    Plan.Sound ⟨head, rooms', o.selector⟩ o.grounds (p.block.calls none) := by
  have htidy := h.isTidy hfit
  have hsel := h.isSelective hfit
  have hname : rooms'.map Room.name = rooms.map Room.name := Room.map_name_of_thins hthins
  have hmem : ∀ {name}, name ∈ rooms'.filterMap Room.name ↔ name ∈ o.headings.map (·.name) :=
    h.mem_filterMap_name hfit hrooms hthins
  have hheading : ∀ name ∈ rooms'.filterMap Room.name, ∃ q ∈ o.headings, q.name = name
      ∧ o.selector name = q.selector := fun name hn => h.exists_heading (hmem.1 hn)
  exact {
    neat := by
      intro r' hr'
      obtain ⟨r, hr, hn, hbody⟩ := exists_rel_of_mem hthins hr'
      have hneat := ((hrooms.holds r hr).neat hsel).thinned hbody
      rwa [← hn] at hneat
    distinct := by
      rw [hname]
      exact h.nodup_name hfit hrooms
    main := by
      obtain ⟨procedures, body, rfl, -⟩ := hrooms.main
      rw [List.map_append] at hname
      obtain ⟨procedures', last, rfl, -, hlast⟩ := List.map_eq_append_iff.1 hname
      obtain ⟨⟨_, body'⟩, rfl, rfl⟩ := List.map_eq_singleton_iff.1 hlast
      exact ⟨procedures', body', rfl⟩
    called := by
      intro r' hr' name ret hcall
      obtain ⟨r, hr, hn, hbody⟩ := exists_rel_of_mem hthins hr'
      have hcall' := hbody.sublist.subset hcall
      exact ⟨hn ▸ (hrooms.holds r hr).mem_calls hcall',
        hmem.2 (h.mem_headings_of_call (hrooms.mem_code hr hcall'))⟩
    limited := by
      intro name
      show (Piece.returns (rooms'.flatMap Room.pieces) name).length ≤ Code.maxCalls
      rw [hreturns]
      exact h.limited name
    placed := Outline.placed_grounds htidy.housed
    selector := by
      intro name hn
      obtain ⟨q, hq, rfl, heq⟩ := hheading name hn
      have hvar := htidy.housed.selector q hq
      show (o.selector q.name).Placed ∧ ¬ o.grounds.Reaches (o.selector q.name).addr
      rw [heq]
      exact ⟨(htidy.housed.bounds.scalar _ hvar).trans htidy.housed.bounds.free_le,
        Outline.not_reaches_selector htidy hsel hq⟩
    apart := by
      intro name hn name' hn' hne
      obtain ⟨q, hq, rfl, heq⟩ := hheading name hn
      obtain ⟨q', hq', rfl, heq'⟩ := hheading name' hn'
      show (o.selector q.name).addr ≠ (o.selector q'.name).addr
      rw [heq, heq']
      exact Outline.selector_addr_ne htidy hsel hq hq' fun h => hne (congrArg Heading.name h)
    head := hhead }

theorem mem_procedures_iff (h : p.Coded code o) (hfit : p.block.arraysFit = true)
    (hrooms : p.InRooms code o rooms) (hthins : List.Forall₂ Room.Thins rooms' rooms)
    (name : String) : name ∈ rooms'.filterMap Room.name ↔ name ∈ p.block.procedures := by
  rw [h.mem_filterMap_name hfit hrooms hthins, h.block.map_name_headings]
  rfl

/-- The lines of a program are those of a sound plan. -/
theorem exists_plan (h : p.Coded code o) (hfit : p.block.arraysFit = true)
    (hrooms : p.InRooms code o rooms) :
    ∃ P : Plan, P.Sound o.grounds (p.block.calls none) ∧ List.Forall₂ Room.Thins P.rooms rooms
      ∧ o.lines (Program.pieces code) = P.lines := by
  have hthins : List.Forall₂ Room.Thins rooms rooms := List.forall₂_same.2 fun r _ => .refl r
  refine ⟨⟨Code.prologue, rooms, o.selector⟩, ?_, hthins, ?_⟩
  · refine h.sound_of_thins hfit hrooms hthins (fun name => ?_) (.inl Code.prologue_eq)
    rw [← hrooms.code_eq]
  · show _ = Code.prologue ++ (rooms.flatMap Room.pieces).flatMap
      (Piece.expand o.selector (Piece.returns (rooms.flatMap Room.pieces)))
    rw [← hrooms.code_eq]
    rfl

/-- The selector of a procedure that is called is not released. -/
theorem not_released (h : p.Coded code o) (hfit : p.block.arraysFit = true)
    (hrooms : p.InRooms code o rooms) (name ret : String) (hcall : .call name ret ∈ code) :
    .line (.release (o.selector name).addr) ∉ code := by
  intro hrelease
  have hsel := h.isSelective hfit
  obtain ⟨q, hq, rfl, heq⟩ := h.exists_heading (h.mem_headings_of_call hcall)
  rw [hrooms.code_eq] at hrelease
  obtain ⟨r, hr, hbody⟩ := Room.mem_body_of_release hrelease
  have howns := ((hrooms.holds r hr).neat hsel).owns_of_release hbody
  rw [heq] at howns
  exact Outline.not_reaches_selector (h.isTidy hfit) hsel hq (.inl howns)

/-- Tidied lines are those of a sound plan as well. -/
theorem exists_plan_tidy (h : p.Coded code o) (hfit : p.block.arraysFit = true)
    (hrooms : p.InRooms code o rooms) :
    ∃ P : Plan, P.Sound o.grounds (p.block.calls none) ∧ List.Forall₂ Room.Thins P.rooms rooms
      ∧ tidy (o.lines (Program.pieces code)) = P.lines := by
  have hneat : ∀ r ∈ rooms, r.Neat o.grounds :=
    fun r hr => (hrooms.holds r hr).neat (h.isSelective hfit)
  have hnumbered : ∀ name, ∀ ret ∈ Piece.returns code name, ∃ n, ret = Code.labelName n := by
    intro name ret hret
    have hcall := Piece.mem_returns.1 hret
    rw [hrooms.code_eq] at hcall
    obtain ⟨r, hr, hbody⟩ := Room.mem_body_of_call hcall
    exact (hneat r hr).exists_ret hbody
  have hsealed : Piece.Sealed (Piece.returns code) (rooms.flatMap Room.pieces) :=
    Room.sealed_flatMap hneat hnumbered
  rw [← hrooms.code_eq] at hsealed
  obtain ⟨code', jump, hthin, hlines, hjump⟩ := exists_thinned_tidy hsealed (h.not_released hfit hrooms)
  obtain ⟨rooms', rfl, hthins⟩ := Room.exists_forall₂_thins (hrooms.code_eq ▸ hthin)
  refine ⟨⟨Code.setup ++ jump, rooms', o.selector⟩, ?_, hthins, ?_⟩
  · refine h.sound_of_thins hfit hrooms hthins hthin.returns_eq ?_
    -- The jump goes only if the label of the program comes first.
    obtain rfl | ⟨rfl, hlabel⟩ := hjump
    · exact .inl rfl
    · refine .inr ⟨List.append_nil _, ?_⟩
      obtain ⟨body, rfl⟩ := hrooms.eq_singleton hlabel
      obtain ⟨⟨_, body'⟩, _, ⟨rfl, -⟩, hnil, rfl⟩ := List.forall₂_cons_right_iff.1 hthins
      rw [List.forall₂_nil_right_iff.1 hnil]
      exact ⟨body', rfl⟩
  · have hreturns : Piece.returns (rooms'.flatMap Room.pieces) = Piece.returns code :=
      funext hthin.returns_eq
    show _ = Code.setup ++ jump ++ (rooms'.flatMap Room.pieces).flatMap
      (Piece.expand o.selector (Piece.returns (rooms'.flatMap Room.pieces)))
    rw [hreturns, List.append_assoc]
    exact hlines

end Program.Coded

end NibblePascal
