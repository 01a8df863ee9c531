import NibblePascal.Proofs.Assembly.Neat
import NibblePascal.Proofs.Assembly.Stored
import NibblePascal.Proofs.Storage.Workspace

/-!
# Cells that are read before they are released

A fragment that works on a temporary reads it and does not store into it again, so a release that
follows the fragment finds the temporary read.

* `LastRead addr lines`: the lines load the cell, and they do not store into it any more;
* `Frugal lines`: all loads are used, and all released cells were read last.
-/

namespace NibblePascal

/-- The lines load the cell and do not store into it behind that load. -/
def LastRead (addr : Nat) (lines : List Line) : Prop :=
  ∃ a b, lines = a ++ Code.load addr :: b ∧ Code.store addr ∉ b

/-- Behind each load its content is used, and before each mark of a release the cell was read. -/
structure Frugal (lines : List Line) : Prop where
  used : ∀ a b addr, lines = a ++ Code.load addr :: b → Used b
  read : ∀ a b addr, lines = a ++ .release addr :: b → LastRead addr a

variable {lines a b : List Line} {addr : Nat} {P : Nat → Prop}

theorem WritesIn.store_notMem (h : WritesIn P lines) (hP : ¬ P addr) : Code.store addr ∉ lines :=
  fun hmem => hP (h _ hmem)

namespace LastRead

theorem of_mem (h : Code.load addr ∈ lines) (hs : Code.store addr ∉ lines) :
    LastRead addr lines := by
  obtain ⟨a, b, rfl⟩ := List.append_of_mem h
  exact ⟨a, b, rfl, fun hb => hs (List.mem_append_right _ (List.mem_cons_of_mem _ hb))⟩

theorem append (h : LastRead addr a) (hs : Code.store addr ∉ b) : LastRead addr (a ++ b) := by
  obtain ⟨c, d, rfl, hd⟩ := h
  refine ⟨c, d ++ b, by simp, fun hmem => ?_⟩
  obtain hmem | hmem := List.mem_append.1 hmem
  exacts [hd hmem, hs hmem]

theorem prepend (h : LastRead addr b) (a : List Line) : LastRead addr (a ++ b) := by
  obtain ⟨c, d, rfl, hd⟩ := h
  exact ⟨a ++ c, d, by simp, hd⟩

end LastRead

/-! ### Frugal lines -/

theorem Neat.frugal (h : Neat lines) : Frugal lines where
  used := by
    rintro a b addr rfl
    exact h.of_append.2.1 rfl
  read := by
    rintro a b addr rfl
    cases h.of_append.1

/-- A line of two parts stands in one of them. -/
theorem append_eq_append_cons {c d : List Line} {l : Line} (h : a ++ b = c ++ l :: d) :
    (∃ e, a = c ++ l :: e ∧ d = e ++ b) ∨ ∃ e, c = a ++ e ∧ b = e ++ l :: d := by
  obtain ⟨e, hc, hb⟩ | ⟨e, ha, hd⟩ := List.append_eq_append_iff.1 h
  · exact .inr ⟨e, hc, hb⟩
  · cases e with
    | nil => exact .inr ⟨[], by simpa using ha.symm, hd.symm⟩
    | cons l' e =>
      obtain ⟨rfl, rfl⟩ := List.cons.inj hd
      exact .inl ⟨e, ha, rfl⟩

namespace Frugal

theorem nil : Frugal [] := Neat.frugal neat_nil

theorem append (ha : Frugal a) (hb : Frugal b) : Frugal (a ++ b) where
  used := by
    intro c d addr heq
    obtain ⟨e, rfl, rfl⟩ | ⟨e, rfl, rfl⟩ := append_eq_append_cons heq
    · exact (ha.used c e addr rfl).append b
    · exact hb.used e d addr rfl
  read := by
    intro c d addr heq
    obtain ⟨e, rfl, rfl⟩ | ⟨e, rfl, rfl⟩ := append_eq_append_cons heq
    · exact ha.read c e addr rfl
    · exact (hb.read e d addr rfl).prepend a

/-- A cell is released that was read last. -/
theorem release (ha : Frugal a) (hread : LastRead addr a) : Frugal (a ++ [.release addr]) where
  used := by
    intro c d other heq
    obtain ⟨e, rfl, rfl⟩ | ⟨e, rfl, hmark⟩ := append_eq_append_cons heq
    · exact (ha.used c e other rfl).append _
    · cases e <;> simp [Code.load] at hmark
  read := by
    intro c d other heq
    obtain ⟨e, rfl, rfl⟩ | ⟨e, rfl, hmark⟩ := append_eq_append_cons heq
    · exact ha.read c e other rfl
    · cases e with
      | nil =>
        obtain ⟨⟨rfl⟩, -⟩ := List.cons.inj hmark
        rwa [List.append_nil]
      | cons l e => simp at hmark

end Frugal

/-! ### Fragments read what they work on -/

namespace Var

variable {u v : Var}

theorem covers_addr (v : Var) : v.Covers v.addr :=
  ⟨Nat.le_refl _, Nat.lt_add_of_pos_right v.cells_pos⟩

theorem Apart.not_covers (h : u.Apart v) : ¬ v.Covers u.addr := apart_iff.1 h _ u.covers_addr

theorem inCells_covers (v : Var) : v.InCells v.Covers := fun _ h => h

end Var

namespace Code

variable {src dst u v w x y z q r index offset : Var} {arr : ArrayVar} {n : Nat}

theorem load_mem_copyCells {op : Option AluOp} {count : Nat} (h : 0 < count) :
    load src.addr ∈ copyCells src dst op count :=
  List.mem_flatMap.2 ⟨0, List.mem_range.2 h, by simp [Var.cell]⟩

theorem lastRead_resize (h : src.Apart dst) : LastRead src.addr (resize src dst) := by
  refine .of_mem (List.mem_append_left _ (load_mem_copyCells ?_))
    ((writesIn_resize dst.inCells_covers).store_notMem h.not_covers)
  exact Nat.lt_min.2 ⟨src.cells_pos, dst.cells_pos⟩

theorem load_mem_combine (op : AluOp) :
    load u.addr ∈ combine op u w dst ∧ load w.addr ∈ combine op u w dst := by
  constructor <;>
    exact List.mem_cons_of_mem _ (List.mem_flatMap.2
      ⟨0, List.mem_range.2 u.cells_pos, by simp [Var.cell]⟩)

theorem lastRead_output (port : Nat) : LastRead v.addr (output port v) :=
  .of_mem (by simp [output, Var.cell]) (by simp [output, load, store])

theorem load_mem_product :
    load x.addr ∈ product x y z u w n ∧ load y.addr ∈ product x y z u w n := by
  have hx : load x.addr ∈ assign x u none := load_mem_copyCells x.cells_pos
  have hy : load y.addr ∈ assign y w none := load_mem_copyCells y.cells_pos
  constructor <;> simp [product, hx, hy]

theorem load_mem_quotient (remainder : Bool) :
    load x.addr ∈ quotient x y q r w remainder n
      ∧ load y.addr ∈ quotient x y q r w remainder n := by
  have hx : load x.addr ∈ assign x r none := load_mem_copyCells x.cells_pos
  have hy : load y.addr ∈ assign y w none := load_mem_copyCells y.cells_pos
  constructor <;> simp [quotient, hx, hy]

theorem load_mem_elementOffset : load index.addr ∈ elementOffset arr index offset := by
  simp [elementOffset, Var.cell]

theorem lastRead_readElement (hd : index.Apart dst) (hw : arr.width = dst.width)
    (ho : index.Apart offset) (hbyte : offset.width = .byte) :
    LastRead index.addr (readElement arr index dst offset) := by
  have hwrites : WritesIn (fun k => dst.Covers k ∨ offset.Covers k)
      (readElement arr index dst offset) :=
    writesIn_readElement (fun _ => .inl) hw (fun _ => .inr) hbyte
  refine .of_mem (List.mem_append_left _ load_mem_elementOffset) (hwrites.store_notMem ?_)
  exact not_or.2 ⟨hd.not_covers, ho.not_covers⟩

/-- A write to an element stores into its offset, and for the rest into the bank of the array. -/
theorem store_notMem_writeElement (ho : ¬ offset.Covers addr) (hbyte : offset.width = .byte) :
    store addr ∉ writeElement arr index src offset := by
  have hadvance : ∀ i, store addr ∉
      if i + 1 < arr.width.cells then increment offset else [] := by
    intro i
    split
    · exact (writesIn_step .add offset.inCells_covers).store_notMem ho
    · exact List.not_mem_nil
  rw [writeElement, List.mem_append, not_or]
  refine ⟨(writesIn_elementOffset offset.inCells_covers hbyte).store_notMem ho, ?_⟩
  rw [List.mem_flatMap]
  rintro ⟨i, -, hmem⟩
  obtain hmem | hmem := List.mem_append.1 hmem
  · simp [point, store, load, toLow, toHigh, bank] at hmem
  · exact hadvance i hmem

theorem load_mem_writeElement :
    load index.addr ∈ writeElement arr index src offset
      ∧ load src.addr ∈ writeElement arr index src offset := by
  refine ⟨List.mem_append_left _ load_mem_elementOffset, List.mem_append_right _ ?_⟩
  have hpos : 0 < arr.width.cells := by cases arr.width <;> decide
  exact List.mem_flatMap.2 ⟨0, List.mem_range.2 hpos, by simp [Var.cell]⟩

/-! ### Tests read what they look at -/

variable {yes no : String}

theorem mem_closeTest {l : Line} {test : List TestLine} (h : .line l ∈ test) :
    l ∈ closeTest yes no test := List.mem_map_of_mem h

theorem line_mem_cellTests {rel : Relation} {l : Line} (hl : l ∈ compareCell u w 0) {count : Nat}
    (hcount : 0 < count) : .line l ∈ cellTests rel u w n count := by
  induction count generalizing n with
  | zero => exact absurd hcount (Nat.lt_irrefl 0)
  | succ count ih =>
    rw [cellTests]
    cases count with
    | zero => exact List.mem_append_left _ (List.mem_append_left _ (List.mem_map_of_mem hl))
    | succ count => exact List.mem_append_right _ (ih count.succ_pos)

theorem lastRead_relationTest (rel : Relation) :
    LastRead u.addr (closeTest yes no (relationTest rel u w n))
      ∧ LastRead w.addr (closeTest yes no (relationTest rel u w n)) := by
  have hstores (addr : Nat) : store addr ∉ closeTest yes no (relationTest rel u w n) :=
    (writesIn_relationTest rel n).store_notMem (P := fun _ => False) id
  have hloads {addr : Nat} (h : load addr ∈ compareCell u w 0) :
      load addr ∈ closeTest yes no (relationTest rel u w n) :=
    mem_closeTest (List.mem_cons_of_mem _ (line_mem_cellTests h u.cells_pos))
  exact ⟨.of_mem (hloads (by simp [compareCell, Var.cell])) (hstores _),
    .of_mem (hloads (by simp [compareCell, Var.cell])) (hstores _)⟩

theorem lastRead_oddTest : LastRead v.addr (closeTest yes no (oddTest v)) :=
  .of_mem (mem_closeTest (by simp [oddTest, Var.cell]))
    (writesIn_oddTest.store_notMem (P := fun _ => False) id)

theorem lastRead_nonzeroTest : LastRead v.addr (closeTest yes no (nonzeroTest v)) := by
  have hcell : v.addr ∈ v.cellList := List.mem_map.2 ⟨0, List.mem_range.2 v.cells_pos, rfl⟩
  refine .of_mem (mem_closeTest ?_) (writesIn_nonzeroTest.store_notMem (P := fun _ => False) id)
  refine List.mem_append_left _ (List.mem_append_right _ ?_)
  exact List.mem_flatMap.2 ⟨v.addr, hcell, List.mem_cons_self⟩

end Code

end NibblePascal
