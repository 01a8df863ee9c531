import NibblePascal.Assembly.Machine
import Mathlib.Tactic.Ring

/-!
# Numbers in memory

A number lies in consecutive cells, its lowest digit first, and every cell of a running
machine holds a digit to the base sixteen.

* `m.number addr count` is the number in `count` cells from `addr` on;
* `m.Nibbles` says that every cell holds a digit;
* `m.writeNumber addr v count` is the one memory that differs from `m` only in those cells
  and holds `v` there, modulo `16 ^ count` (`eq_writeNumber`).
-/

namespace NibblePascal

namespace Memory

variable {m m' : Memory} {addr other value count : Nat}

/-- The number in `count` cells from `addr` on, the lowest cell first. -/
def number (m : Memory) (addr : Nat) : Nat → Nat
  | 0 => 0
  | count + 1 => m.number addr count + m.read (addr + count) * 16 ^ count

/-- Every cell holds a digit to the base sixteen. -/
def Nibbles (m : Memory) : Prop := ∀ addr, m.read addr < 16

theorem nibbles_blank : blank.Nibbles := fun addr => by
  by_cases h : addr < memorySize <;> simp [blank, read, read?, h]

theorem read_of_size_le (h : memorySize ≤ addr) : m.read addr = 0 := by
  have : m.cells[addr]? = none := by simp [h]
  simp [read, read?, this]

theorem read?_of_lt (h : addr < memorySize) : m.read? addr = some (m.read addr) := by
  simp [read, read?, h]

theorem ext_read (h : ∀ addr < memorySize, m.read addr = m'.read addr) : m = m' := by
  obtain ⟨cells⟩ := m
  obtain ⟨cells'⟩ := m'
  congr 1
  ext i hi
  have hread := h i hi
  simpa [read, read?, hi] using hread

theorem read_write (h : addr < memorySize) :
    (m.write addr value).read other = if other = addr then value else m.read other := by
  split
  · subst other
    exact read_write_same m value h
  · rename_i hne
    exact read_write_of_ne m value (Ne.symm hne)

theorem nibbles_write (hm : m.Nibbles) (hv : value < 16) : (m.write addr value).Nibbles := by
  intro other
  by_cases h : addr < memorySize
  · rw [read_write h]
    split
    · exact hv
    · exact hm other
  · by_cases hne : addr = other
    · rw [← hne, read_of_size_le (by omega)]
      omega
    · rw [read_write_of_ne m value hne]
      exact hm other

/-! ### Reading -/

@[simp] theorem number_zero : m.number addr 0 = 0 := rfl

theorem number_succ :
    m.number addr (count + 1) = m.number addr count + m.read (addr + count) * 16 ^ count := rfl

@[simp] theorem number_one : m.number addr 1 = m.read addr := by simp [number]

/-- The lowest cell apart. -/
theorem number_succ_left :
    m.number addr (count + 1) = m.read addr + 16 * m.number (addr + 1) count := by
  induction count with
  | zero => simp
  | succ count ih =>
    rw [number_succ, ih, number_succ, Nat.add_right_comm addr 1 count, Nat.add_assoc addr count 1]
    ring

theorem number_congr (h : ∀ i < count, m.read (addr + i) = m'.read (other + i)) :
    m.number addr count = m'.number other count := by
  induction count with
  | zero => rfl
  | succ count ih =>
    rw [number_succ, number_succ, ih fun i hi => h i (by omega), h count (by omega)]

theorem Nibbles.number_lt (hm : m.Nibbles) (addr count : Nat) :
    m.number addr count < 16 ^ count := by
  induction count with
  | zero => simp
  | succ count ih =>
    have hd : m.read (addr + count) * 16 ^ count ≤ 15 * 16 ^ count :=
      Nat.mul_le_mul_right _ (Nat.le_of_lt_succ (hm _))
    rw [number_succ, Nat.pow_succ]
    omega

/-- The lower cells hold the remainder of the number. -/
theorem number_mod (hm : m.Nibbles) {k : Nat} (hk : k ≤ count) :
    m.number addr count % 16 ^ k = m.number addr k := by
  induction count with
  | zero =>
    obtain rfl : k = 0 := by omega
    simp
  | succ count ih =>
    rcases Nat.lt_or_ge count k with h | h
    · obtain rfl : k = count + 1 := by omega
      exact Nat.mod_eq_of_lt (hm.number_lt ..)
    · obtain ⟨d, rfl⟩ := Nat.exists_eq_add_of_le h
      rw [number_succ, Nat.pow_add, ← ih h, show m.read (addr + (k + d)) * (16 ^ k * 16 ^ d) =
        16 ^ k * (m.read (addr + (k + d)) * 16 ^ d) by ring, Nat.add_mul_mod_self_left]

/-- The lower cells and the upper cells. -/
theorem number_add (m : Memory) (addr k count : Nat) :
    m.number addr (k + count) = m.number addr k + 16 ^ k * m.number (addr + k) count := by
  induction count with
  | zero => simp
  | succ count ih =>
    rw [← Nat.add_assoc, number_succ, ih, number_succ, Nat.add_assoc addr, Nat.pow_add]
    ring

/-- The upper cells hold the quotient of the number. -/
theorem number_div (hm : m.Nibbles) (k : Nat) :
    m.number addr (k + count) / 16 ^ k = m.number (addr + k) count := by
  rw [number_add, Nat.add_mul_div_left _ _ (Nat.pow_pos (by decide)),
    Nat.div_eq_of_lt (hm.number_lt ..), Nat.zero_add]

/-- A cell holds a digit of the number. -/
theorem number_digit (hm : m.Nibbles) {i : Nat} (hi : i < count) :
    m.number addr count / 16 ^ i % 16 = m.read (addr + i) := by
  rw [← Nat.mod_mul_right_div_self, ← Nat.pow_succ, number_mod hm (by omega), number_succ,
    Nat.add_mul_div_right _ _ (Nat.pow_pos (by decide)), Nat.div_eq_of_lt (hm.number_lt ..), Nat.zero_add]

/-- Cells that hold digits are known from their number. -/
theorem read_eq_of_number_eq (hm : m.Nibbles) (hm' : m'.Nibbles)
    (h : m'.number other count = m.number addr count) {i : Nat} (hi : i < count) :
    m'.read (other + i) = m.read (addr + i) := by
  rw [← number_digit hm hi, ← number_digit hm' hi, h]

/-! ### Writing -/

/-- The next digit of a number is written. -/
theorem number_write_next {i : Nat} (h : addr + i < memorySize) :
    (m.write (addr + i) value).number addr (i + 1) = m.number addr i + value * 16 ^ i := by
  rw [number_succ, read_write h, if_pos rfl]
  congr 1
  exact number_congr fun j hj => read_write_of_ne _ _ (by omega)

theorem writeNumber_succ (m : Memory) (addr value count : Nat) :
    m.writeNumber addr value (count + 1) =
      (m.writeNumber addr value count).write (addr + count) (value / 16 ^ count % 16) := by
  rw [writeNumber, Nat.shiftRight_eq_div_pow, Nat.pow_mul]

theorem read_writeNumber_of_not (h : ¬ (addr ≤ other ∧ other < addr + count)) :
    (m.writeNumber addr value count).read other = m.read other := by
  induction count with
  | zero => rfl
  | succ count ih =>
    rw [writeNumber_succ, read_write_of_ne _ _ (by omega), ih (by omega)]

theorem read_writeNumber (hfit : addr + count ≤ memorySize) {i : Nat} (hi : i < count) :
    (m.writeNumber addr value count).read (addr + i) = value / 16 ^ i % 16 := by
  induction count with
  | zero => omega
  | succ count ih =>
    rw [writeNumber_succ, read_write (by omega)]
    split
    · rename_i h
      obtain rfl : i = count := by omega
      rfl
    · exact ih (by omega) (by omega)

theorem nibbles_writeNumber (hm : m.Nibbles) : (m.writeNumber addr value count).Nibbles := by
  induction count with
  | zero => exact hm
  | succ count ih =>
    rw [writeNumber_succ]
    exact nibbles_write ih (Nat.mod_lt _ (by decide))

theorem number_writeNumber_same (hfit : addr + count ≤ memorySize) :
    (m.writeNumber addr value count).number addr count = value % 16 ^ count := by
  suffices h : ∀ k ≤ count,
      (m.writeNumber addr value count).number addr k = value % 16 ^ k from h count le_rfl
  intro k hk
  induction k with
  | zero => simp [Nat.mod_one]
  | succ k ih =>
    rw [number_succ, ih (by omega), read_writeNumber hfit (by omega), Nat.mod_pow_succ,
      Nat.mul_comm]

/-- A number is known from its digits. -/
theorem number_of_digits (hfit : addr + count ≤ memorySize)
    (h : ∀ i < count, m.read (addr + i) = value / 16 ^ i % 16) :
    m.number addr count = value % 16 ^ count := by
  rw [← number_writeNumber_same (m := m) hfit]
  exact number_congr fun i hi => by rw [h i hi, read_writeNumber hfit hi]

theorem number_writeNumber_of_apart {k : Nat} (h : addr + count ≤ other ∨ other + k ≤ addr) :
    (m.writeNumber addr value count).number other k = m.number other k :=
  number_congr fun i hi => read_writeNumber_of_not (by omega)

/-- A memory that differs from `m` in the cells of one number only is `m` with that number. -/
theorem eq_writeNumber (hfit : addr + count ≤ memorySize) (hm' : m'.Nibbles)
    (hsame : ∀ other, ¬ (addr ≤ other ∧ other < addr + count) → m'.read other = m.read other)
    (hvalue : m'.number addr count = value % 16 ^ count) :
    m' = m.writeNumber addr value count := by
  apply ext_read
  intro other _
  by_cases h : addr ≤ other ∧ other < addr + count
  · obtain ⟨i, rfl⟩ := Nat.exists_eq_add_of_le h.1
    have hi : i < count := by omega
    rw [read_writeNumber hfit hi, ← number_digit hm' hi, hvalue, ← Nat.mod_mul_right_div_self,
      ← Nat.mod_mul_right_div_self value, ← Nat.pow_succ,
      Nat.mod_mod_of_dvd _ (Nat.pow_dvd_pow 16 (by omega))]
  · rw [read_writeNumber_of_not h, hsame other h]

theorem writeNumber_mod (hm : m.Nibbles) (hfit : addr + count ≤ memorySize) :
    m.writeNumber addr (value % 16 ^ count) count = m.writeNumber addr value count := by
  refine eq_writeNumber hfit (nibbles_writeNumber hm) (fun other h => ?_) ?_
  · exact read_writeNumber_of_not h
  · rw [number_writeNumber_same hfit, Nat.mod_mod]

end Memory

end NibblePascal
