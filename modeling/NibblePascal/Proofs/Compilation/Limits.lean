import NibblePascal.Proofs.Compilation.Confined
import NibblePascal.Proofs.Compilation.Returned
import NibblePascal.Proofs.Generation.Loops
import NibblePascal.Proofs.Simulation.Undisturbed

/-!
# Limits of counted loops in accepted programs

The limit of a counted loop is a temporary, and procedures use temporaries as well.  The code of
the loop leaves its limit alone, so as long as the loop runs the limit can only be changed by a
procedure that the loop calls, by itself or through others.  Where none of these stores into the
limit, it stays what it was.
-/

namespace NibblePascal

variable {files : Files} {o : Options} {name text : String} {p : Program} {c : Compilation}
  {x : Token} {down : Bool} {first last : Expr} {gate : Gate} {body : Stmt} {k : Gen.Counter}
  {limits : List Var} {g g' : Generator}

/-- The loop stands in a room of the plan. -/
theorem Program.Planned.hasLoop {outline : Outline} {rooms : List Room} {P : Plan}
    (h : p.Planned c outline rooms P) (henters : p.Enters limits (.forDo x down first last gate body) g)
    (hopen : Gen.openFor x down first last gate g = .ok k g') :
    ∃ r ∈ P.rooms, r.HasLoop outline.grounds body k := by
  obtain ⟨r, hr, w, hfrom, hw⟩ := h.stem.entered henters
  obtain ⟨r', hr', hthins⟩ := exists_rel_of_mem (R := flip Room.Thins) (.flip h.thins) hr
  exact ⟨r', hr', (hfrom.hasLoop h.selective hw hopen).thins hthins⟩

/-- A run between the labels of the loop leaves the limit alone if the procedures that are called
there do so. -/
theorem Room.HasLoop.read_eq {outline : Outline} {P : Plan} {graph : List (Option String × String)}
    {T : Territory} {image : Image} {r : Room} (h : r.HasLoop outline.grounds body k)
    (htidy : outline.Tidy) (hl : P.Loaded image) (hs : P.Sound outline.grounds graph)
    (hac : ∀ p, ¬ CanReach graph p p) (hr : r ∈ P.rooms)
    (hloads : T.Loads image (Image.labelMap P.lines) P.lines)
    {m : Memory} (hm : m.Nibbles) {inp : Vector Nat 16} (hi : ∀ x ∈ inp, x < 16) {n j : Nat}
    (hremains : image.Remains P.lines { mem := m, inp := inp } (Image.labelMap P.lines k.test)
      (Image.labelMap P.lines k.exit) n j) {s t : State}
    (hsteps : image.steps n { mem := m, inp := inp } = some s)
    (hlast : image.steps (n + j) { mem := m, inp := inp } = some t) {addr : Nat}
    (hcovers : k.limit.Covers addr)
    (haway : ∀ q ∈ body.callees, ∀ q', q = q' ∨ CanReach graph q q' →
      Code.store addr ∉ procedureLines P.lines q') : t.mem.read addr = s.mem.read addr := by
  obtain ⟨i, a, mid, b, hbody, htest, hexit, hlimit, -, hrepeats⟩ := h
  have hcode : r.body = a ++ ((.mark i :: mid) ++ .mark (i + 3) :: b) := hbody
  have hend : r.body = (a ++ .mark i :: mid) ++ .mark (i + 3) :: b := by
    rw [hcode, List.append_assoc]
  have hsub : .mark i :: mid ⊆ r.body := by
    rw [hcode]
    exact List.Subset.trans (List.subset_append_left ..) (List.subset_append_right ..)
  rw [htest, hexit, hl.labelMap_eq hr hbody, hl.labelMap_eq hr hend] at hremains
  refine Plan.read_eq_of_remains hl hs hac hm hi hr hcode hremains hloads
    (hcovers.2.trans_le (hs.placed.scalar _ hlimit)) (fun hstore => ?_) ?_ hsteps hlast
  · have hmem := hs.mem_of_store hr hsub ⟨k.limit, hlimit, hcovers⟩ hstore
    have hmid : .line (Code.store addr) ∈ mid := (List.mem_cons.1 hmem).resolve_left nofun
    obtain ⟨v, ⟨hv, hne⟩, hcovers'⟩ := hrepeats.stores addr hmid
    exact Var.apart_iff.1 (htidy.apart hv.1 hlimit.1 hne) addr hcovers' hcovers
  · rintro q ⟨q', ret, hcall, hreach⟩
    have hmid : .call q' ret ∈ mid := (List.mem_cons.1 hcall).resolve_left nofun
    exact haway q' (hrepeats.calls q' ret hmid) q hreach

/-- The limit of a counted loop does not change while the loop runs, however long and whatever it
calls, if no procedure that the loop can come to stores into it. -/
theorem limit_unchanged (h : Accepts files o name text p c) (hp : p.block.asmFree = true)
    (hac : p.block.Acyclic) (henters : p.Enters limits (.forDo x down first last gate body) g)
    (hopen : Gen.openFor x down first last gate g = .ok k g')
    (haway : ∀ q ∈ body.callees, ∀ q', q = q' ∨ CanReach (p.block.calls none) q q' →
      ∀ addr, k.limit.Covers addr → Code.store addr ∉ procedureLines c.lines q')
    {m : Memory} (hm : m.Nibbles) {inp : Vector Nat 16} (hi : ∀ x ∈ inp, x < 16) :
    ∃ image, Image.ofLines? c.lines = some image ∧ ∀ n j s t,
      image.Remains c.lines { mem := m, inp := inp } (Image.labelMap c.lines k.test)
          (Image.labelMap c.lines k.exit) n j →
        image.steps n { mem := m, inp := inp } = some s →
        image.steps (n + j) { mem := m, inp := inp } = some t →
          ∀ addr, k.limit.Covers addr → t.mem.read addr = s.mem.read addr := by
  obtain ⟨hbounds, hkeeps⟩ := h.guarded hp
  have hclosed := h.closed hp
  obtain ⟨image, himage, hholds, hend⟩ := hclosed.exists_image
  obtain ⟨outline, rooms, P, hplanned⟩ := h.exists_planned hp
  obtain ⟨r, hr, hloop⟩ := hplanned.hasLoop henters hopen
  have hloads : c.memory.territory.Loads image (Image.labelMap c.lines) c.lines :=
    ⟨hbounds.placed, hkeeps, hclosed, hholds, hend⟩
  rw [hplanned.lines] at himage hholds hend hloads haway ⊢
  refine ⟨image, himage, fun n j s t hremains hsteps hlast addr hcovers => ?_⟩
  exact hloop.read_eq hplanned.tidy ⟨hholds, hend⟩ hplanned.sound hac hr hloads hm hi hremains hsteps
    hlast hcovers fun q hq q' hreach => haway q hq q' hreach addr hcovers

/-- The limit of a loop is one of the temporaries. -/
theorem Accepts.limit_mem (h : Accepts files o name text p c) (hp : p.block.asmFree = true)
    (henters : p.Enters limits (.forDo x down first last gate body) g)
    (hopen : Gen.openFor x down first last gate g = .ok k g') : k.limit ∈ c.memory.temporaries := by
  obtain ⟨outline, rooms, P, hplanned⟩ := h.exists_planned hp
  obtain ⟨r, -, -, -, -, -, -, -, -, hlimit, htemp, -⟩ := hplanned.hasLoop henters hopen
  rw [hplanned.memory]
  exact List.mem_filter.2 ⟨hlimit.1, htemp⟩

/-- A counted loop that takes temporaries and calls a procedure, which stores into `n` only. -/
def callText : String :=
  "var i, n: nibble;\nprocedure p;\nbegin\n  inc n;\n  outp 0, n\nend;\n"
    ++ "begin\n  for i := 1 to 3 do\n  begin\n    n := n * i + 2;\n    call p\n  end\nend.\n"

/-- Whether a program begins with a counted loop that calls `q` and nothing else. -/
def Program.startsWithCallingLoop (p : Program) (q : String) : Bool :=
  match p.block.first? with
  | some (.forDo _ _ _ _ _ body) => body.callees == [q]
  | _ => false

/-- Whether a procedure stores into no temporary of the tidied program. -/
def Program.sparesTemporaries (p : Program) (q : String) : Bool :=
  match p.generate {} with
  | .ok () g => g.memory.temporaries.all fun v => v.cellList.all fun addr =>
      !(procedureLines (tidy g.code.lines) q).contains (Code.store addr)
  | .error .. => false

/-- What is tested of a procedure holds in the compiled lines. -/
theorem Accepts.store_notMem (h : Accepts files {} name text p c) {q : String}
    (hq : p.sparesTemporaries q = true) {v : Var} (hv : v ∈ c.memory.temporaries) {addr : Nat}
    (hcovers : v.Covers addr) : Code.store addr ∉ procedureLines c.lines q := by
  obtain ⟨g, hgen, -, hmemory, hlines⟩ := h.generated
  unfold Program.sparesTemporaries at hq
  simp only [hgen, List.all_eq_true] at hq
  rw [hmemory] at hv
  have hcell : addr ∈ v.cellList := by
    refine List.mem_map.2 ⟨addr - v.addr, List.mem_range.2 ?_, Nat.add_sub_cancel' hcovers.1⟩
    exact Nat.sub_lt_left_of_lt_add hcovers.1 hcovers.2
  have hnot := hq v hv addr hcell
  rw [hlines]
  simpa using hnot

theorem limit_unchanged_call : ∃ p c limits x down first last gate body g k g',
    Accepts {} {} "call" callText p c ∧ p.block.asmFree = true ∧ p.block.Acyclic
    ∧ p.Enters limits (.forDo x down first last gate body) g
    ∧ Gen.openFor x down first last gate g = .ok k g'
    ∧ (∀ q ∈ body.callees, ∀ q', q = q' ∨ CanReach (p.block.calls none) q q' →
      ∀ addr, k.limit.Covers addr → Code.store addr ∉ procedureLines c.lines q')
    ∧ Memory.blank.Nibbles ∧ (∀ x ∈ Vector.replicate 16 7, x < 16)
    ∧ ∃ image, Image.ofLines? c.lines = some image ∧ ∀ n j s t,
      image.Remains c.lines { mem := Memory.blank, inp := Vector.replicate 16 7 }
          (Image.labelMap c.lines k.test) (Image.labelMap c.lines k.exit) n j →
        image.steps n { mem := Memory.blank, inp := Vector.replicate 16 7 } = some s →
        image.steps (n + j) { mem := Memory.blank, inp := Vector.replicate 16 7 } = some t →
          ∀ addr, k.limit.Covers addr → t.mem.read addr = s.mem.read addr := by
  have haccepted : isAccepted {} {} "call" callText (fun p => (p.startsWithCallingLoop "p"
      && p.block.asmFree) && (p.sparesTemporaries "p" && p.block.calls none == [(none, "p")])) = true := by
    decide +kernel
  obtain ⟨p, c, h, htest⟩ := exists_accepts_of_isAccepted haccepted
  simp only [Bool.and_eq_true, beq_iff_eq] at htest
  obtain ⟨⟨hstarts, hp⟩, hspares, hcalls⟩ := htest
  have hac : p.block.Acyclic := Block.acyclic_of_rank (fun _ => 0) fun caller callee hcall => by
    simp [hcalls] at hcall
  -- Generation succeeds, so it gets through the start of the loop.
  have hloop : ∃ x down first last gate body g k g',
      p.Enters [] (.forDo x down first last gate body) g
      ∧ Gen.openFor x down first last gate g = .ok k g' ∧ body.callees = ["p"] := by
    obtain ⟨g₀, hgen, -⟩ := h.generated
    obtain ⟨st, g, g₂, hfirst, henters, hst⟩ := p.enters_first hgen
    unfold Program.startsWithCallingLoop at hstarts
    rw [hfirst] at hstarts
    split at hstarts
    case h_2 => cases hstarts
    case h_1 heq =>
      obtain rfl := Option.some.inj heq
      obtain ⟨k, g', hopen, -⟩ := Gen.of_bind hst
      exact ⟨_, _, _, _, _, _, g, k, g', henters, hopen, eq_of_beq hstarts⟩
  obtain ⟨x, down, first, last, gate, body, g, k, g', henters, hopen, hcallees⟩ := hloop
  have haway : ∀ q ∈ body.callees, ∀ q', q = q' ∨ CanReach (p.block.calls none) q q' →
      ∀ addr, k.limit.Covers addr → Code.store addr ∉ procedureLines c.lines q' := by
    intro q hq q' hreach addr hcovers
    obtain rfl : q = "p" := by simpa [hcallees] using hq
    obtain rfl | hreach := hreach
    · exact h.store_notMem hspares (h.limit_mem hp henters hopen) hcovers
    · obtain ⟨_, hcall, -⟩ := Relation.TransGen.head'_iff.1 hreach
      simp [hcalls] at hcall
  have hinp : ∀ x ∈ Vector.replicate 16 7, x < 16 := fun x hx => by
    rw [Vector.eq_of_mem_replicate hx]
    decide
  exact ⟨p, c, [], x, down, first, last, gate, body, g, k, g', h, hp, hac, henters, hopen, haway,
    Memory.nibbles_blank, hinp, limit_unchanged h hp hac henters hopen haway Memory.nibbles_blank hinp⟩

end NibblePascal
