import MPStuBS.BlockProgram
import Mathlib.Algebra.Group.Nat.Defs
import Mathlib.Tactic.IntervalCases

/-! Little-endian words and bitmaps in byte memory. The bitmaps are read and written in
16-bit words. -/
namespace MPStuBS

def within (start size i : Nat) : Bool := Nat.ble start i && Nat.blt i (start + size)

@[simp] theorem within_iff {start size i : Nat} :
    within start size i = true ↔ start ≤ i ∧ i < start + size := by
  simp [within, Nat.blt, Nat.succ_le_iff]

theorem within_eq_false {start size i : Nat} :
    within start size i = false ↔ i < start ∨ start + size ≤ i := by
  rw [← Bool.not_eq_true, within_iff]
  omega

namespace Bytes

variable (b : Bytes)

/-- `memset`. -/
def fill (start size : Nat) (value : UInt8) : Bytes :=
  fun i => if within start size i then value else b i

/-- `memcpy`. -/
def splice (start size : Nat) (source : Bytes) : Bytes :=
  fun i => if within start size i then source (i - start) else b i

def u16 (i : Nat) : Nat := (b i).toNat + 256 * (b (i + 1)).toNat

def u32 (i : Nat) : Nat :=
  (b i).toNat + 256 * (b (i + 1)).toNat + 65536 * (b (i + 2)).toNat + 16777216 * (b (i + 3)).toNat

def setU16 (i value : Nat) : Bytes :=
  fun j => if within i 2 j then UInt8.ofNat (value >>> (8 * (j - i))) else b j

def setU32 (i value : Nat) : Bytes :=
  fun j => if within i 4 j then UInt8.ofNat (value >>> (8 * (j - i))) else b j

def bit (j : Nat) : Bool := (b.u16 (2 * (j / 16))).testBit (j % 16)

def setBit (j : Nat) : Bytes :=
  b.setU16 (2 * (j / 16)) (b.u16 (2 * (j / 16)) ||| 1 <<< (j % 16))

def clearBit (j : Nat) : Bytes :=
  b.setU16 (2 * (j / 16)) (b.u16 (2 * (j / 16)) &&& (65535 ^^^ 1 <<< (j % 16)))

variable {b}

theorem fill_of_lt {start size i : Nat} {value : UInt8} (low : start ≤ i) (high : i < start + size) :
    b.fill start size value i = value := by
  simp [fill, low, high]

theorem u16_lt (b : Bytes) (i : Nat) : b.u16 i < 65536 := by
  have := (b i).toNat_lt
  have := (b (i + 1)).toNat_lt
  simp only [u16]; omega

theorem u32_lt (b : Bytes) (i : Nat) : b.u32 i < 4294967296 := by
  have := (b i).toNat_lt
  have := (b (i + 1)).toNat_lt
  have := (b (i + 2)).toNat_lt
  have := (b (i + 3)).toNat_lt
  simp only [u32]; omega

theorem u16_congr {c : Bytes} {i : Nat} (same : ∀ j, i ≤ j → j < i + 2 → b j = c j) :
    b.u16 i = c.u16 i := by
  simp only [u16, same i (by omega) (by omega), same (i + 1) (by omega) (by omega)]

theorem u32_congr {c : Bytes} {i : Nat} (same : ∀ j, i ≤ j → j < i + 4 → b j = c j) :
    b.u32 i = c.u32 i := by
  simp only [u32, same i (by omega) (by omega), same (i + 1) (by omega) (by omega),
    same (i + 2) (by omega) (by omega), same (i + 3) (by omega) (by omega)]

@[simp] theorem u16_setU16 (i value : Nat) : (b.setU16 i value).u16 i = value % 65536 := by
  have low : within i 2 i = true := by simp
  have high : within i 2 (i + 1) = true := by simp
  simp only [u16, setU16, low, high, if_true, Nat.sub_self, Nat.add_sub_cancel_left,
    UInt8.toNat_ofNat', Nat.shiftRight_eq_div_pow]
  omega

theorem setU16_of_outside {i j value : Nat} (out : j < i ∨ i + 2 ≤ j) : b.setU16 i value j = b j := by
  simp [setU16, within_eq_false.mpr out]

theorem u16_setU16_of_apart {i j value : Nat} (apart : j + 2 ≤ i ∨ i + 2 ≤ j) :
    (b.setU16 i value).u16 j = b.u16 j :=
  u16_congr fun k _ _ => setU16_of_outside (by omega)

@[simp] theorem u32_setU32 (i value : Nat) : (b.setU32 i value).u32 i = value % 4294967296 := by
  have first : within i 4 i = true := by simp
  have second : within i 4 (i + 1) = true := by simp
  have third : within i 4 (i + 2) = true := by simp
  have fourth : within i 4 (i + 3) = true := by simp
  simp only [u32, setU32, first, second, third, fourth, if_true, Nat.sub_self,
    Nat.add_sub_cancel_left, UInt8.toNat_ofNat', Nat.shiftRight_eq_div_pow]
  omega

theorem setU32_of_outside {i j value : Nat} (out : j < i ∨ i + 4 ≤ j) : b.setU32 i value j = b j := by
  simp [setU32, within_eq_false.mpr out]

theorem u32_setU32_of_apart {i j value : Nat} (apart : j + 4 ≤ i ∨ i + 4 ≤ j) :
    (b.setU32 i value).u32 j = b.u32 j :=
  u32_congr fun k _ _ => setU32_of_outside (by omega)

theorem u32_fill_zero {start size i : Nat} (low : start ≤ i) (high : i + 4 ≤ start + size) :
    (b.fill start size 0).u32 i = 0 := by
  simp only [u32]
  rw [fill_of_lt, fill_of_lt, fill_of_lt, fill_of_lt]
  all_goals first | rfl | omega

section Bits

theorem bit_setU16 {i j value : Nat} (bound : value < 65536) :
    (b.setU16 (2 * i) value).bit j = if j / 16 = i then value.testBit (j % 16) else b.bit j := by
  simp only [bit]
  split
  case isTrue same => rw [same, u16_setU16, Nat.mod_eq_of_lt bound]
  case isFalse other => rw [u16_setU16_of_apart (by omega)]

theorem same_bit {i j : Nat} (word : j / 16 = i / 16) : j % 16 = i % 16 ↔ j = i := by omega

@[simp] theorem bit_setBit (i j : Nat) : (b.setBit i).bit j = (decide (j = i) || b.bit j) := by
  have word := b.u16_lt (2 * (i / 16))
  have mask : 1 <<< (i % 16) < 2 ^ 16 := by
    have : i % 16 < 16 := Nat.mod_lt _ (by omega)
    interval_cases i % 16 <;> decide
  rw [setBit, bit_setU16 (Nat.or_lt_two_pow (n := 16) word mask)]
  split
  case isTrue same =>
    rw [Nat.testBit_or, Nat.shiftLeft_eq, Nat.one_mul, Nat.testBit_two_pow, bit, same, Bool.or_comm]
    congr 1
    exact decide_eq_decide.mpr ⟨fun h => (same_bit same).mp h.symm, fun h => ((same_bit same).mpr h).symm⟩
  case isFalse other =>
    have : j ≠ i := by rintro rfl; exact other rfl
    simp [this]

@[simp] theorem bit_clearBit (i j : Nat) : (b.clearBit i).bit j = (!decide (j = i) && b.bit j) := by
  have word := b.u16_lt (2 * (i / 16))
  rw [clearBit, bit_setU16 (Nat.lt_of_le_of_lt Nat.and_le_left word)]
  split
  case isTrue same =>
    have low : j % 16 < 16 := Nat.mod_lt _ (by omega)
    rw [Nat.testBit_and, Nat.testBit_xor, Nat.shiftLeft_eq, Nat.one_mul, Nat.testBit_two_pow, bit,
      same, show (65535 : Nat) = 2 ^ 16 - 1 by rfl, Nat.testBit_two_pow_sub_one, Bool.and_comm]
    congr 1
    simp only [low, decide_true, Bool.true_xor]
    congr 1
    exact decide_eq_decide.mpr ⟨fun h => (same_bit same).mp h.symm, fun h => ((same_bit same).mpr h).symm⟩
  case isFalse other =>
    have : j ≠ i := by rintro rfl; exact other rfl
    simp [this]

end Bits

/-- The lowest zero bit of a word among the bits from `i` on. -/
def findFirstZero (u : Nat) : Nat → Nat → Nat
  | 0, i => i
  | n + 1, i => if u.testBit i then findFirstZero u n (i + 1) else i

/-- The first bit that is zero in the words from `n` on, or `size`. -/
def firstZeroFrom (b : Bytes) (size : Nat) : Nat → Nat → Nat
  | 0, _ => size
  | words + 1, n =>
    if b.u16 (2 * n) = 65535 then firstZeroFrom b size words (n + 1)
    else n * 16 + findFirstZero (b.u16 (2 * n)) 16 0

/-- `minix_find_first_zero_bit`; the size is a multiple of 16. -/
def findFirstZeroBit (b : Bytes) (size : Nat) : Nat := firstZeroFrom b size (size / 16) 0

theorem findFirstZero_spec (u n i : Nat) : (∀ j, i ≤ j → j < findFirstZero u n i → u.testBit j = true) ∧
    i ≤ findFirstZero u n i ∧ findFirstZero u n i ≤ i + n ∧
    (findFirstZero u n i < i + n → u.testBit (findFirstZero u n i) = false) := by
  induction n generalizing i with
  | zero => exact ⟨fun j low high => absurd high (by simp only [findFirstZero]; omega), Nat.le_refl i,
      Nat.le_refl i, fun h => absurd h (by simp [findFirstZero])⟩
  | succ n ih =>
    obtain ⟨below, low, high, zero⟩ := ih (i + 1)
    rw [findFirstZero]
    split
    case isTrue set =>
      refine ⟨fun j low' high' => ?_, by omega, by omega, fun h => zero (by omega)⟩
      by_cases here : j = i
      · rw [here]; exact set
      · exact below j (by omega) high'
    case isFalse unset => exact ⟨fun j low high => by omega, Nat.le_refl i, by omega, fun _ => by simpa using unset⟩

theorem all_ones {u : Nat} (bound : u < 65536) (ones : ∀ j < 16, u.testBit j = true) : u = 65535 := by
  apply Nat.eq_of_testBit_eq
  intro j
  rw [show (65535 : Nat) = 2 ^ 16 - 1 by rfl, Nat.testBit_two_pow_sub_one]
  by_cases low : j < 16
  · rw [ones j low]; simp [low]
  · rw [Nat.testBit_lt_two_pow (Nat.lt_of_lt_of_le bound (Nat.pow_le_pow_right (n := 2) (by omega) (show 16 ≤ j by omega)))]
    simp [low]

theorem firstZeroFrom_spec (b : Bytes) (words n : Nat) :
    (∀ j, 16 * n ≤ j → j < firstZeroFrom b (16 * (n + words)) words n → b.bit j = true) ∧
    16 * n ≤ firstZeroFrom b (16 * (n + words)) words n ∧
    (firstZeroFrom b (16 * (n + words)) words n < 16 * (n + words) →
      b.bit (firstZeroFrom b (16 * (n + words)) words n) = false) := by
  induction words generalizing n with
  | zero => exact ⟨fun j low high => absurd high (by simp only [firstZeroFrom]; omega),
      by simp [firstZeroFrom], fun h => absurd h (by simp [firstZeroFrom])⟩
  | succ words ih =>
    obtain ⟨below, low, zero⟩ := ih (n + 1)
    rw [show 16 * (n + 1 + words) = 16 * (n + (words + 1)) by omega] at below low zero
    rw [firstZeroFrom]
    split
    case isTrue full =>
      refine ⟨fun j low' high' => ?_, by omega, zero⟩
      by_cases here : j < 16 * (n + 1)
      · have word : j / 16 = n := by omega
        rw [bit, word, full, show (65535 : Nat) = 2 ^ 16 - 1 by rfl, Nat.testBit_two_pow_sub_one]
        simp only [decide_eq_true_eq]; omega
      · exact below j (by omega) high'
    case isFalse notFull =>
      obtain ⟨ones, _, high, unset⟩ := findFirstZero_spec (b.u16 (2 * n)) 16 0
      have found : findFirstZero (b.u16 (2 * n)) 16 0 < 16 := by
        apply Nat.lt_of_le_of_ne (by omega)
        intro none
        rw [none] at ones
        exact notFull (all_ones (b.u16_lt _) fun j low => ones j (by omega) low)
      refine ⟨fun j low' high' => ?_, by omega, fun _ => ?_⟩
      · have word : j / 16 = n := by omega
        rw [bit, word]
        exact ones _ (by omega) (by omega)
      · rw [bit, show (n * 16 + findFirstZero (b.u16 (2 * n)) 16 0) / 16 = n by omega,
          show (n * 16 + findFirstZero (b.u16 (2 * n)) 16 0) % 16 =
            findFirstZero (b.u16 (2 * n)) 16 0 by omega]
        exact unset (by omega)

/-- All bits before the one found are set, and it is not. -/
theorem findFirstZeroBit_spec (b : Bytes) {size : Nat} (words : size % 16 = 0) :
    (∀ j < findFirstZeroBit b size, b.bit j = true) ∧
    (findFirstZeroBit b size < size → b.bit (findFirstZeroBit b size) = false) := by
  obtain ⟨below, _, zero⟩ := firstZeroFrom_spec b (size / 16) 0
  have whole : 16 * (0 + size / 16) = size := by omega
  rw [whole] at below zero
  exact ⟨fun j high => below j (by omega) high, zero⟩

end Bytes
end MPStuBS
