import NibblePascal.Program.Reader
import NibblePascal.Proofs.Except

/-!
# What reading checks

A tree that was read keeps to the bounds of the machine: an array fits into a slot, and a port
has a number below sixteen.
-/

namespace NibblePascal

/-- Whether every array of a block fits into a slot. -/
def Block.arraysFit : Block → Bool
  | fault _ => true
  | code _ => true
  | declare _ width len rest => (len.all fun n => n * width.cells ≤ slotSize) && rest.arraysFit
  | procedure _ body _ rest => body.arraysFit && rest.arraysFit

namespace Context

variable {c : Context} {ts ts' : List Token} {count : Nat}

/-- Whether a declared name is a scalar or an array that fits into a slot. -/
def Declared.fits (d : Declared) : Bool := d.len.all fun n => n * d.width.cells ≤ slotSize

theorem arrayLength_fits {width : Width} {len : Option Nat}
    (h : c.arrayLength width ts = .ok (len, ts')) :
    (len.all fun n => n * width.cells ≤ slotSize) = true := by
  unfold arrayLength at h
  split at h
  case h_1 =>
    obtain ⟨rfl, -⟩ : none = len ∧ _ := by simpa using h
    rfl
  case h_2 =>
    obtain ⟨⟨t, ts₁⟩, -, h⟩ := of_bind_ok h
    obtain ⟨n, -, h⟩ := of_bind_ok h
    obtain ⟨_, -, h⟩ := of_bind_ok h
    dsimp only at h
    split at h
    · cases h
    · split at h
      · cases h
      · rename_i hfits
        cases h
        simpa using hfits

theorem declaration_fits {ds : List Declared} (h : c.declaration ts = .ok (ds, ts')) :
    ∀ d ∈ ds, d.fits = true := by
  unfold declaration at h
  obtain ⟨⟨xs, ts₁⟩, -, h⟩ := of_bind_ok h
  obtain ⟨⟨_, ts₂⟩, -, h⟩ := of_bind_ok h
  obtain ⟨⟨t, ts₃⟩, -, h⟩ := of_bind_ok h
  dsimp only at h
  split at h
  · cases h
  · obtain ⟨⟨len, ts₄⟩, hlen, h⟩ := of_bind_ok h
    cases h
    intro d hd
    obtain ⟨x, -, rfl⟩ := List.mem_map.1 hd
    exact arrayLength_fits hlen

theorem varSection_fits (c : Context) (count : Nat) (ts : List Token) :
    ∀ d ∈ (c.varSection count ts).1, d.fits = true := by
  induction count generalizing ts with
  | zero => exact nofun
  | succ count ih =>
    rw [varSection]
    split
    case h_1 => exact nofun
    case h_2 ds ts₁ hds =>
      have hfits := declaration_fits hds
      have hmore : ∀ ts₂, ∀ d ∈ ds ++ (c.varSection count ts₂).1, d.fits = true := fun ts₂ d hd =>
        (List.mem_append.1 hd).elim (hfits d) (ih ts₂ d)
      split
      · exact hmore _
      · split
        · exact hfits
        · split
          exacts [hmore _, hfits]

theorem arraysFit_declareAll {ds : List Declared} {rest : Block} (hds : ∀ d ∈ ds, d.fits = true)
    (hrest : rest.arraysFit = true) : (declareAll ds rest).arraysFit = true := by
  induction ds with
  | nil => exact hrest
  | cons d ds ih =>
    refine Bool.and_eq_true_iff.2 ⟨hds d (.head _), ih fun d' hd' => hds d' (.tail _ hd')⟩

theorem arraysFit_blockWithin (count : Nat) (c : Context) (ts : List Token) :
    (blockWithin count c ts).1.arraysFit = true := by
  induction count generalizing c ts with
  | zero => rfl
  | succ count ih =>
    rw [blockWithin]
    split
    · split
      exacts [ih c _, rfl]
    · have hds := varSection_fits c ts.length ts.tail
      dsimp only
      split
      exacts [arraysFit_declareAll hds (ih _ _), arraysFit_declareAll hds rfl]
    · split
      exacts [Bool.and_eq_true_iff.2 ⟨ih c _, ih c _⟩, rfl]
    · rfl

end Context

theorem Program.arraysFit_ofTokens (file : String) (tokens : List Token) :
    (Program.ofTokens file tokens).block.arraysFit = true :=
  Context.arraysFit_blockWithin ..

end NibblePascal
