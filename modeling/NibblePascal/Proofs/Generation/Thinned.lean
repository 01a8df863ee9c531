import NibblePascal.Proofs.Assembly.Tidied
import NibblePascal.Proofs.Generation.Program

/-!
# Tidied pieces

The jump of a call and the dispatch at the end of a procedure come through tidying as they are:
behind the jump of a call stands its return label, behind a dispatch the label of another part of
the code, and no selector is ever released.  So tidied code is made of pieces again.

* `Thinned a b`: the pieces `a` are left of the pieces `b`;
* `Piece.Sealed`: no call and no dispatch jumps to the label right below it;
* `exists_thinned_tidy`: the tidied lines of a program are those of thinned pieces.
-/

namespace NibblePascal

/-- Whether a piece is a line of its own. -/
def Piece.isLine : Piece → Bool
  | line _ => true
  | _ => false

/-- Pieces that tidying may take out. -/
def Piece.isLoose : Piece → Bool
  | line l => l.isLoose
  | _ => false

/-- The first pieces are left of the second ones when some loose lines are taken out. -/
inductive Thinned : List Piece → List Piece → Prop
  | nil : Thinned [] []
  | keep {a b : List Piece} (piece : Piece) (h : Thinned a b) : Thinned (piece :: a) (piece :: b)
  | drop {a b : List Piece} {l : Line} (hl : l.isLoose = true) (h : Thinned a b) :
      Thinned a (.line l :: b)

namespace Thinned

variable {a b c : List Piece} {piece : Piece}

theorem refl (a : List Piece) : Thinned a a := by
  induction a with
  | nil => exact .nil
  | cons piece a ih => exact .keep piece ih

theorem trans (h : Thinned a b) (h' : Thinned b c) : Thinned a c := by
  induction h' generalizing a with
  | nil => exact h
  | drop hl _ ih => exact .drop hl (ih h)
  | keep piece _ ih =>
    cases h with
    | keep _ h => exact .keep piece (ih h)
    | drop hl h => exact .drop hl (ih h)

theorem sublist (h : Thinned a b) : a.Sublist b := by
  induction h with
  | nil => exact .slnil
  | keep piece _ ih => exact ih.cons_cons piece
  | drop _ _ ih => exact ih.cons _

/-- What is not loose stays. -/
theorem mem_of_not_loose (h : Thinned a b) (hp : piece.isLoose = false) (hb : piece ∈ b) :
    piece ∈ a := by
  induction h with
  | nil => exact hb
  | keep piece' _ ih =>
    obtain rfl | hb := List.mem_cons.1 hb
    exacts [.head _, .tail _ (ih hb)]
  | drop hl _ ih =>
    obtain rfl | hb := List.mem_cons.1 hb
    · exact absurd hl (by simp [show Line.isLoose _ = false from hp])
    · exact ih hb

/-- Pieces in a row are thinned apart. -/
theorem of_append {b₁ b₂ : List Piece} (h : Thinned a (b₁ ++ b₂)) :
    ∃ a₁ a₂, a = a₁ ++ a₂ ∧ Thinned a₁ b₁ ∧ Thinned a₂ b₂ := by
  induction b₁ generalizing a with
  | nil => exact ⟨[], a, rfl, .nil, h⟩
  | cons piece b₁ ih =>
    cases h with
    | keep _ h =>
      obtain ⟨a₁, a₂, rfl, h₁, h₂⟩ := ih h
      exact ⟨piece :: a₁, a₂, rfl, .keep piece h₁, h₂⟩
    | drop hl h =>
      obtain ⟨a₁, a₂, rfl, h₁, h₂⟩ := ih h
      exact ⟨a₁, a₂, rfl, .drop hl h₁, h₂⟩

/-- A piece that is not loose stays first. -/
theorem of_cons (h : Thinned a (piece :: b)) (hp : piece.isLoose = false) :
    ∃ a', a = piece :: a' ∧ Thinned a' b := by
  cases h with
  | keep _ h => exact ⟨_, rfl, h⟩
  | drop hl _ => exact absurd hl (by simp [show Line.isLoose _ = false from hp])

theorem returns_eq (h : Thinned a b) (name : String) : Piece.returns a name = Piece.returns b name := by
  induction h with
  | nil => rfl
  | keep piece _ ih =>
    unfold Piece.returns at ih ⊢
    rw [List.filterMap_cons, List.filterMap_cons, ih]
  | drop _ _ ih => exact ih

theorem tidied_plain (h : Thinned a b) : Tidied (a.map Piece.plain) (b.map Piece.plain) := by
  induction h with
  | nil => exact .nil
  | keep piece _ ih => exact .keep _ ih
  | drop hl _ ih => exact .drop hl ih

end Thinned

/-! ### Sealed pieces -/

/-- The label that comes first in the lines, comments apart. -/
def leadingLabel? (lines : List Line) : Option String :=
  (lines.find? (!·.isComment)).bind Line.label?

/-- No call jumps to the label right below it, and no end of a procedure returns to it. -/
def Piece.Sealed (returns : String → List String) : List Piece → Prop
  | [] => True
  | .line _ :: rest => Sealed returns rest
  | .call p _ :: rest => leadingLabel? (rest.map plain) ≠ some (Gen.procedureLabel p) ∧ Sealed returns rest
  | .finish p :: rest =>
      (∀ ret ∈ returns p, leadingLabel? (rest.map plain) ≠ some ret) ∧ Sealed returns rest

variable {selector : String → Var} {returns : String → List String}

theorem leadingLabel?_cons_inst (i : Instruction) (lines : List Line) :
    leadingLabel? (.inst i :: lines) = none := by
  simp [leadingLabel?, Line.isComment, Line.label?]

theorem leadingLabel?_cons_comment {l : Line} (h : l.isComment = true) (lines : List Line) :
    leadingLabel? (l :: lines) = leadingLabel? lines := by
  simp [leadingLabel?, h]

theorem leadingLabel?_of_isIdleJump {kind : JumpKind} {target : String} {after : List Line}
    (h : isIdleJump after (Code.jump kind target) = true) : leadingLabel? after = some target := by
  have hfind := eq_of_beq h
  rw [leadingLabel?, hfind]
  rfl

/-- A piece that is no line begins with an instruction. -/
theorem Piece.exists_expand_eq (selector : String → Var) (returns : String → List String)
    (piece : Piece) (h : piece.isLine = false) :
    ∃ i lines, piece.expand selector returns = .inst i :: lines := by
  cases piece with
  | line l => cases h
  | call p ret =>
    rw [expand]
    split
    exacts [⟨_, _, rfl⟩, ⟨_, _, rfl⟩]
  | finish p =>
    rw [expand]
    split
    · exact ⟨_, _, rfl⟩
    · cases hr : returns p with
      | nil => simp_all
      | cons first rest =>
        cases rest with
        | nil => exact ⟨_, _, rfl⟩
        | cons second rest => exact ⟨_, _, rfl⟩

/-- Calls and returns hide no label. -/
theorem leadingLabel?_expand (code : List Piece) :
    leadingLabel? (code.flatMap (Piece.expand selector returns)) =
      leadingLabel? (code.map Piece.plain) := by
  induction code with
  | nil => rfl
  | cons piece code ih =>
    rw [List.flatMap_cons, List.map_cons]
    cases piece with
    | line l =>
      by_cases hl : l.isComment = true
      · rw [Piece.plain, leadingLabel?_cons_comment hl, ← ih]
        exact leadingLabel?_cons_comment hl _
      · simp [leadingLabel?, hl, Piece.plain, Piece.expand]
    | call p ret =>
      obtain ⟨i, lines, hexpand⟩ := Piece.exists_expand_eq selector returns (.call p ret) rfl
      rw [hexpand, List.cons_append, leadingLabel?_cons_inst]
      rfl
    | finish p =>
      obtain ⟨i, lines, hexpand⟩ := Piece.exists_expand_eq selector returns (.finish p) rfl
      rw [hexpand, List.cons_append, leadingLabel?_cons_inst]
      rfl

/-! ### Redundant lines -/

theorem dropRedundantFrom_of_kept {before rest : List Line} {l : Line}
    (hload : isReload before l = false) (hjump : isIdleJump rest l = false) :
    dropRedundantFrom before (l :: rest) = dropRedundantFrom (l :: before) rest := by
  rw [dropRedundantFrom, hload, hjump]
  rfl

theorem dropRedundantFrom_jump {before rest : List Line} {kind : JumpKind} {target : String}
    (h : leadingLabel? rest ≠ some target) :
    dropRedundantFrom before (Code.jump kind target :: rest) =
      dropRedundantFrom (Code.jump kind target :: before) rest := by
  refine dropRedundantFrom_of_kept rfl ?_
  by_contra hidle
  exact h (leadingLabel?_of_isIdleJump (by simpa using hidle))

theorem dropRedundantFrom_returnCascade (before after : List Line) : (labels : List String) →
    (∀ t ∈ labels, leadingLabel? after ≠ some t) →
    dropRedundantFrom before (Code.returnCascade labels ++ after) =
      dropRedundantFrom ((Code.returnCascade labels).reverse ++ before) after
  | [], _ => rfl
  | [last], h => dropRedundantFrom_jump (h last (.head _))
  | [first, last], h => by
    rw [Code.returnCascade, List.cons_append, dropRedundantFrom_jump (by simp [Code.jump, leadingLabel?_cons_inst])]
    exact dropRedundantFrom_jump (h last (by simp))
  | first :: second :: third :: rest, h => by
    have ih := dropRedundantFrom_returnCascade (Code.alu .sub :: Code.jump .jz first :: before) after
      (second :: third :: rest) fun t ht => h t (.tail _ ht)
    have hcascade : Code.returnCascade (first :: second :: third :: rest) =
        Code.jump .jz first :: Code.alu .sub :: Code.returnCascade (second :: third :: rest) := rfl
    rw [hcascade, List.cons_append, dropRedundantFrom_jump (by simp [Code.alu, leadingLabel?_cons_inst]),
      List.cons_append, dropRedundantFrom_of_kept rfl rfl, ih]
    simp

theorem dropRedundantFrom_returnDispatch (before after : List Line) (v : Var) {labels : List String}
    (h : ∀ t ∈ labels, leadingLabel? after ≠ some t) :
    dropRedundantFrom before (Code.returnDispatch v labels ++ after) =
      dropRedundantFrom ((Code.returnDispatch v labels).reverse ++ before) after := by
  unfold Code.returnDispatch
  split
  case h_1 => rfl
  case h_2 only => exact dropRedundantFrom_jump (h only (.head _))
  case h_3 first rest hne =>
    -- The load of the selector stands behind an instruction that is no store.
    have hcascade := dropRedundantFrom_returnCascade (Code.jump .jb first :: Code.alu .sub
      :: Code.load v.addr :: Code.toLow :: Code.loadImm 1 :: Code.carry 0 :: before) after rest
      fun t ht => h t (.tail _ ht)
    obtain ⟨i, lines, hrest⟩ : ∃ i lines, Code.returnCascade rest = .inst i :: lines := by
      match rest, hne with
      | [last], _ => exact ⟨_, _, rfl⟩
      | [_, last], _ => exact ⟨_, _, rfl⟩
      | _ :: _ :: _ :: _, _ => exact ⟨_, _, rfl⟩
    have hjump : leadingLabel? (Code.returnCascade rest ++ after) ≠ some first := by
      rw [hrest, List.cons_append, leadingLabel?_cons_inst]
      nofun
    simp only [List.cons_append, List.nil_append]
    rw [dropRedundantFrom_of_kept rfl rfl, dropRedundantFrom_of_kept rfl rfl,
      dropRedundantFrom_of_kept rfl rfl, dropRedundantFrom_of_kept rfl rfl,
      dropRedundantFrom_of_kept rfl rfl, dropRedundantFrom_jump hjump, hcascade]
    simp

theorem dropRedundantFrom_call (before after : List Line) {p ret : String}
    (h : leadingLabel? after ≠ some (Gen.procedureLabel p)) :
    dropRedundantFrom before ((Piece.call p ret).expand selector returns ++ after) =
      dropRedundantFrom (((Piece.call p ret).expand selector returns).reverse ++ before) after := by
  rw [Piece.expand]
  split
  · simp only [Code.selectCall, List.cons_append, List.nil_append]
    rw [dropRedundantFrom_of_kept rfl rfl, dropRedundantFrom_of_kept rfl rfl,
      dropRedundantFrom_jump h]
    simp
  · exact dropRedundantFrom_jump h

theorem dropRedundantFrom_finish (before after : List Line) {p : String}
    (h : ∀ t ∈ returns p, leadingLabel? after ≠ some t) :
    dropRedundantFrom before ((Piece.finish p).expand selector returns ++ after) =
      dropRedundantFrom (((Piece.finish p).expand selector returns).reverse ++ before) after := by
  rw [Piece.expand]
  split
  · exact dropRedundantFrom_of_kept rfl rfl
  · exact dropRedundantFrom_returnDispatch before after _ h

/-- The first pass takes out lines and no other pieces. -/
theorem exists_thinned_dropRedundantFrom (selector : String → Var) (before : List Line)
    {code : List Piece} (h : Piece.Sealed returns code) :
    ∃ code', Thinned code' code ∧
      dropRedundantFrom before (code.flatMap (Piece.expand selector returns)) =
        before.reverse ++ code'.flatMap (Piece.expand selector returns) := by
  induction code generalizing before with
  | nil => exact ⟨[], .nil, by simp [dropRedundantFrom]⟩
  | cons piece code ih =>
    -- The piece stays if all its lines do.
    have hkeep : Piece.Sealed returns code →
        dropRedundantFrom before (piece.expand selector returns
          ++ code.flatMap (Piece.expand selector returns)) =
        dropRedundantFrom ((piece.expand selector returns).reverse ++ before)
          (code.flatMap (Piece.expand selector returns)) →
        ∃ code', Thinned code' (piece :: code) ∧
          dropRedundantFrom before ((piece :: code).flatMap (Piece.expand selector returns)) =
            before.reverse ++ code'.flatMap (Piece.expand selector returns) := by
      intro hrest heq
      obtain ⟨code', hthin, htail⟩ := ih ((piece.expand selector returns).reverse ++ before) hrest
      refine ⟨piece :: code', .keep piece hthin, ?_⟩
      rw [List.flatMap_cons, heq, htail]
      simp
    cases piece with
    | line l =>
      by_cases hdrop : (isReload before l
          || isIdleJump (code.flatMap (Piece.expand selector returns)) l) = true
      · obtain ⟨code', hthin, htail⟩ := ih before h
        have hloose : l.isLoose = true := by
          unfold isReload isIdleJump at hdrop
          split at hdrop <;> split at hdrop <;> simp_all [Line.isLoose]
        refine ⟨code', .drop hloose hthin, ?_⟩
        rw [← htail, List.flatMap_cons, Piece.expand, List.singleton_append, dropRedundantFrom,
          if_pos hdrop]
      · refine hkeep h ?_
        rw [Piece.expand, List.singleton_append, dropRedundantFrom, if_neg hdrop]
        rfl
    | call p ret => exact hkeep h.2 (dropRedundantFrom_call _ _ (leadingLabel?_expand code ▸ h.1))
    | finish p => exact hkeep h.2 (dropRedundantFrom_finish _ _ (leadingLabel?_expand code ▸ h.1))

/-! ### Dead stores -/

variable {addr : Nat} {block rest : List Line}

/-- A search passes lines that are no release of the cell. -/
theorem withoutRelease?_append (h : .release addr ∉ block) :
    withoutRelease? addr (block ++ rest) =
      if block.any (mayUse addr) then none else (withoutRelease? addr rest).map (block ++ ·) := by
  induction block with
  | nil => simp
  | cons l block ih =>
    rw [List.mem_cons, not_or] at h
    have hne : (l == .release addr) = false := by simpa using Ne.symm h.1
    rw [List.cons_append, withoutRelease?, hne, ih h.2]
    by_cases hl : mayUse addr l = true
    · simp [hl]
    · by_cases hblock : block.any (mayUse addr) = true
      · simp [hl, hblock]
      · simp [hl, hblock, Function.comp_def]

theorem withoutRelease?_eq_none (h : .release addr ∉ rest) : withoutRelease? addr rest = none := by
  rw [← List.append_nil rest, withoutRelease?_append h]
  split <;> rfl

theorem Piece.release_notMem_expand {piece : Piece} (h : piece.isLine = false) :
    .release addr ∉ piece.expand selector returns := by
  have hcascade : ∀ labels, Line.release addr ∉ Code.returnCascade labels := by
    intro labels
    fun_induction Code.returnCascade labels <;> simp_all [Code.jump, Code.alu]
  cases piece with
  | line l => cases h
  | call p ret =>
    rw [expand]
    split <;> simp [Code.selectCall, Code.store, Code.jump]
  | finish p =>
    rw [expand]
    split
    · simp
    · unfold Code.returnDispatch
      split
      · simp
      · simp [Code.jump]
      · simp [Code.jump, Code.alu, Code.carry, Code.loadImm, Code.toLow, Code.load, hcascade]

/-- The mark of a release is taken out of the pieces. -/
theorem exists_thinned_withoutRelease? {code : List Piece} {shorter : List Line}
    (h : withoutRelease? addr (code.flatMap (Piece.expand selector returns)) = some shorter) :
    ∃ code', Thinned code' code ∧ shorter = code'.flatMap (Piece.expand selector returns) := by
  induction code generalizing shorter with
  | nil => cases h
  | cons piece code ih =>
    have hpass : .release addr ∉ piece.expand selector returns →
        ∃ code', Thinned code' (piece :: code)
          ∧ shorter = code'.flatMap (Piece.expand selector returns) := by
      intro hno
      rw [List.flatMap_cons, withoutRelease?_append hno] at h
      split at h
      · cases h
      · obtain ⟨tail, htail, rfl⟩ := Option.map_eq_some_iff.1 h
        obtain ⟨code', hthin, rfl⟩ := ih htail
        exact ⟨piece :: code', .keep piece hthin, rfl⟩
    cases piece with
    | line l =>
      by_cases hl : l = .release addr
      · subst hl
        refine ⟨code, .drop rfl (.refl _), ?_⟩
        simpa [Piece.expand, withoutRelease?] using h.symm
      · exact hpass (by simpa [Piece.expand] using Ne.symm hl)
    | call p ret | finish p => exact hpass (Piece.release_notMem_expand rfl)

theorem dropDeadStores_of_kept {l : Line}
    (h : ∀ addr, storedCell? l = some addr → withoutRelease? addr rest = none) :
    dropDeadStores (l :: rest) = l :: dropDeadStores rest := by
  rw [dropDeadStores]
  split
  case h_1 shorter hsome =>
    obtain ⟨addr, hstore, hshorter⟩ := Option.bind_eq_some_iff.1 hsome
    rw [h addr hstore] at hshorter
    cases hshorter
  case h_2 => rfl

/-- Lines stay if none of the cells that they store into is released behind. -/
theorem dropDeadStores_append
    (h : ∀ l ∈ block, ∀ addr, storedCell? l = some addr → .release addr ∉ block ++ rest) :
    dropDeadStores (block ++ rest) = block ++ dropDeadStores rest := by
  induction block with
  | nil => rfl
  | cons l block ih =>
    rw [List.cons_append, dropDeadStores_of_kept, ih, List.cons_append]
    · intro l' hl' addr hstore hmem
      exact h l' (.tail _ hl') addr hstore (.tail _ hmem)
    · intro addr hstore
      exact withoutRelease?_eq_none fun hmem => h l (.head _) addr hstore (.tail _ hmem)

theorem mem_of_release_mem_expand {code : List Piece}
    (h : .release addr ∈ code.flatMap (Piece.expand selector returns)) :
    .line (.release addr) ∈ code := by
  obtain ⟨piece, hpiece, hmem⟩ := List.mem_flatMap.1 h
  cases piece with
  | line l =>
    rw [Piece.expand, List.mem_singleton] at hmem
    rwa [hmem]
  | call p ret | finish p =>
    exact absurd hmem (Piece.release_notMem_expand rfl)

/-- A call stores into the selector of its procedure, and the end of a procedure nowhere. -/
theorem Piece.storedCell?_expand {piece : Piece} (h : piece.isLine = false) {l : Line}
    (hl : l ∈ piece.expand selector returns) (hstore : storedCell? l = some addr) :
    ∃ p ret, piece = .call p ret ∧ addr = (selector p).addr := by
  have hcascade : ∀ labels, ∀ l ∈ Code.returnCascade labels, storedCell? l = none := by
    intro labels
    fun_induction Code.returnCascade labels <;> simp_all [Code.jump, Code.alu, storedCell?]
  cases piece with
  | line l => cases h
  | call p ret =>
    refine ⟨p, ret, rfl, ?_⟩
    rw [expand] at hl
    split at hl <;>
      simp [Code.selectCall, Code.jump, Code.store] at hl <;>
      grind [storedCell?]
  | finish p =>
    have hnone : storedCell? l = none := by
      rw [expand] at hl
      split at hl
      · rw [List.mem_singleton.1 hl]
        rfl
      · unfold Code.returnDispatch at hl
        split at hl
        · cases hl
        · rw [List.mem_singleton.1 hl]
          rfl
        · obtain hl | hl := List.mem_append.1 hl
          · simp only [List.mem_cons, List.not_mem_nil, or_false] at hl
            obtain rfl | rfl | rfl | rfl | rfl | rfl := hl <;> rfl
          · exact hcascade _ _ hl
    rw [hnone] at hstore
    cases hstore

/-- The second pass takes out lines and no other pieces. -/
theorem exists_thinned_dropDeadStores (returns : String → List String) (code : List Piece)
    (h : ∀ p ret, .call p ret ∈ code → .line (.release (selector p).addr) ∉ code) :
    ∃ code', Thinned code' code ∧
      dropDeadStores (code.flatMap (Piece.expand selector returns)) =
        code'.flatMap (Piece.expand selector returns) := by
  -- A store that goes takes a release with it, so the induction is on the number of pieces.
  induction hn : code.length using Nat.strong_induction_on generalizing code with
  | _ n ih =>
    subst hn
    cases code with
    | nil => exact ⟨[], .nil, by simp [dropDeadStores]⟩
    | cons piece code =>
      have htail : ∀ code', Thinned code' code →
          ∃ code'', Thinned code'' code' ∧
            dropDeadStores (code'.flatMap (Piece.expand selector returns)) =
              code''.flatMap (Piece.expand selector returns) := by
        intro code' hthin
        refine ih code'.length (Nat.lt_succ_of_le hthin.sublist.length_le) code' ?_ rfl
        intro p ret hcall hrel
        exact h p ret (.tail _ (hthin.sublist.subset hcall)) (.tail _ (hthin.sublist.subset hrel))
      obtain ⟨kept, hkept, heq⟩ := htail code (.refl _)
      have hkeep : dropDeadStores (piece.expand selector returns
            ++ code.flatMap (Piece.expand selector returns)) =
          piece.expand selector returns
            ++ dropDeadStores (code.flatMap (Piece.expand selector returns)) →
          ∃ code', Thinned code' (piece :: code) ∧
            dropDeadStores ((piece :: code).flatMap (Piece.expand selector returns)) =
              code'.flatMap (Piece.expand selector returns) := by
        intro hpiece
        refine ⟨piece :: kept, .keep piece hkept, ?_⟩
        rw [List.flatMap_cons, hpiece, heq, List.flatMap_cons]
      cases hline : piece.isLine with
      | true =>
        obtain ⟨l, rfl⟩ : ∃ l, piece = .line l := by
          cases piece <;> first | exact ⟨_, rfl⟩ | cases hline
        cases hsome : (storedCell? l).bind
            (withoutRelease? · (code.flatMap (Piece.expand selector returns))) with
        | none =>
          refine hkeep (dropDeadStores_of_kept fun addr hstore => ?_)
          rwa [hstore, Option.bind_some] at hsome
        | some shorter =>
          obtain ⟨addr, hstore, hshorter⟩ := Option.bind_eq_some_iff.1 hsome
          obtain ⟨code', hthin, rfl⟩ := exists_thinned_withoutRelease? hshorter
          obtain ⟨code'', hthin', heq'⟩ := htail code' hthin
          have hloose : l.isLoose = true := by
            unfold storedCell? at hstore
            split at hstore
            · rfl
            · cases hstore
          refine ⟨code'', .drop hloose (hthin'.trans hthin), ?_⟩
          rw [List.flatMap_cons, Piece.expand, List.singleton_append, dropDeadStores]
          split
          case h_1 other hother =>
            obtain rfl : code'.flatMap (Piece.expand selector returns) = other :=
              Option.some.inj (hsome.symm.trans hother)
            exact heq'
          case h_2 hnone =>
            rw [hsome] at hnone
            cases hnone
      | false =>
        refine hkeep (dropDeadStores_append fun l hl addr hstore hmem => ?_)
        obtain ⟨p, ret, rfl, rfl⟩ := Piece.storedCell?_expand hline hl hstore
        exact h p ret (.head _) (mem_of_release_mem_expand (List.flatMap_cons ▸ hmem))

/-! ### Programs -/

/-- The prologue but for its jump to the program. -/
def Code.setup : List Line := Code.prologue.dropLast

theorem Code.prologue_eq : Code.prologue = Code.setup ++ [Code.jump .jmp "@main"] := rfl

theorem dropRedundantFrom_setup (after : List Line) :
    dropRedundantFrom [] (Code.setup ++ after) = dropRedundantFrom Code.setup.reverse after := rfl

/-- The tidied lines of a program are its prologue, which keeps its jump unless the program comes
right behind, and the pieces that are left. -/
theorem exists_thinned_tidy {code : List Piece} (hsealed : Piece.Sealed returns code)
    (h : ∀ p ret, .call p ret ∈ code → .line (.release (selector p).addr) ∉ code) :
    ∃ code' jump, Thinned code' code ∧
      tidy ((Program.pieces code).flatMap (Piece.expand selector returns)) =
        Code.setup ++ (jump ++ code'.flatMap (Piece.expand selector returns)) ∧
      (jump = [Code.jump .jmp "@main"]
        ∨ jump = [] ∧ leadingLabel? (code.map Piece.plain) = some "@main") := by
  have hlines : (Program.pieces code).flatMap (Piece.expand selector returns) =
      Code.setup ++ Code.jump .jmp "@main" :: code.flatMap (Piece.expand selector returns) := rfl
  have hsetup : ∀ l ∈ Code.setup, storedCell? l = none := by decide
  -- No line of the prologue stores into a cell, so the second pass leaves it alone.
  have hpass : ∀ jump : List Line, (∀ l ∈ jump, storedCell? l = none) → ∀ rest : List Line,
      dropDeadStores (Code.setup ++ jump ++ rest) = Code.setup ++ jump ++ dropDeadStores rest := by
    intro jump hjump rest
    refine dropDeadStores_append fun l hl addr hstore => ?_
    rw [(List.mem_append.1 hl).elim (hsetup l) (hjump l)] at hstore
    cases hstore
  by_cases hidle : isIdleJump (code.flatMap (Piece.expand selector returns))
      (Code.jump .jmp "@main") = true
  · obtain ⟨kept, hkept, heq⟩ := exists_thinned_dropRedundantFrom selector Code.setup.reverse hsealed
    obtain ⟨code', hthin, heq'⟩ := exists_thinned_dropDeadStores returns kept fun p ret hcall hrel =>
      h p ret (hkept.sublist.subset hcall) (hkept.sublist.subset hrel)
    refine ⟨code', [], hthin.trans hkept, ?_,
      .inr ⟨rfl, leadingLabel?_expand code ▸ leadingLabel?_of_isIdleJump hidle⟩⟩
    rw [tidy, dropRedundant, hlines, dropRedundantFrom_setup, dropRedundantFrom,
      if_pos (by simp [hidle]), heq, List.reverse_reverse, ← List.append_nil Code.setup,
      hpass [] (by simp), heq', List.append_nil, List.nil_append]
  · obtain ⟨kept, hkept, heq⟩ := exists_thinned_dropRedundantFrom selector
      (Code.jump .jmp "@main" :: Code.setup.reverse) hsealed
    obtain ⟨code', hthin, heq'⟩ := exists_thinned_dropDeadStores returns kept fun p ret hcall hrel =>
      h p ret (hkept.sublist.subset hcall) (hkept.sublist.subset hrel)
    refine ⟨code', [Code.jump .jmp "@main"], hthin.trans hkept, ?_, .inl rfl⟩
    rw [tidy, dropRedundant, hlines, dropRedundantFrom_setup,
      dropRedundantFrom_of_kept rfl (by simpa using hidle), heq, List.reverse_cons,
      List.reverse_reverse, hpass _ (by simp [storedCell?, Code.jump]), heq', List.append_assoc]

end NibblePascal
