import MPStuBS.ByteMemory
import Mathlib.Data.Set.Insert

/-! Bitmaps that extend over several blocks, and pools of numbers, of which one that is free is
taken and one that is in use is given back. -/
namespace MPStuBS

namespace BlockBitmap

variable {view view' : Nat → Bytes} {start per k k' : Nat}

/-- A bit of the bitmap that begins with a block and has so many bits in each. -/
def bitAt (view : Nat → Bytes) (start per k : Nat) : Bool := (view (start + k / per)).bit (k % per)

def setBitAt (view : Nat → Bytes) (start per k : Nat) : Nat → Bytes :=
  Function.update view (start + k / per) ((view (start + k / per)).setBit (k % per))

def clearBitAt (view : Nat → Bytes) (start per k : Nat) : Nat → Bytes :=
  Function.update view (start + k / per) ((view (start + k / per)).clearBit (k % per))

/-- A bit is found by its block and its place there. -/
theorem same_place (block : k' / per = k / per) : k' % per = k % per ↔ k' = k := by
  constructor
  · intro place
    have whole := Nat.div_add_mod k' per
    rw [block, place, Nat.div_add_mod] at whole
    exact whole.symm
  · rintro rfl
    rfl

@[simp] theorem bitAt_setBitAt :
    bitAt (setBitAt view start per k) start per k' = (decide (k' = k) || bitAt view start per k') := by
  unfold bitAt setBitAt
  by_cases block : k' / per = k / per
  · rw [block, Function.update_self, Bytes.bit_setBit]
    simp [same_place block]
  · rw [Function.update_of_ne (by omega)]
    have other : k' ≠ k := by
      rintro rfl
      exact block rfl
    simp [other]

@[simp] theorem bitAt_clearBitAt :
    bitAt (clearBitAt view start per k) start per k' = (!decide (k' = k) && bitAt view start per k') := by
  unfold bitAt clearBitAt
  by_cases block : k' / per = k / per
  · rw [block, Function.update_self, Bytes.bit_clearBit]
    simp [same_place block]
  · rw [Function.update_of_ne (by omega)]
    have other : k' ≠ k := by
      rintro rfl
      exact block rfl
    simp [other]

theorem div_lt_blocks {blocks : Nat} (inside : k < blocks * per) : k / per < blocks :=
  Nat.div_lt_of_lt_mul (by rwa [Nat.mul_comm] at inside)

theorem bitAt_congr {blocks : Nat} (inside : k < blocks * per)
    (same : ∀ n, start ≤ n → n < start + blocks → view' n = view n) :
    bitAt view' start per k = bitAt view start per k := by
  have block := div_lt_blocks inside
  unfold bitAt
  rw [same _ (Nat.le_add_right _ _) (by omega)]

theorem setBitAt_of_ne {n : Nat} (other : n ≠ start + k / per) : setBitAt view start per k n = view n :=
  Function.update_of_ne other _ _

theorem clearBitAt_of_ne {n : Nat} (other : n ≠ start + k / per) : clearBitAt view start per k n = view n :=
  Function.update_of_ne other _ _

/-- The numbers whose bits are set. -/
def used (view : Nat → Bytes) (start per size : Nat) : Set Nat := {k | k < size ∧ bitAt view start per k = true}

theorem used_setBitAt {size : Nat} (inside : k < size) :
    used (setBitAt view start per k) start per size = insert k (used view start per size) := by
  ext k'
  simp only [used, bitAt_setBitAt, Set.mem_ofPred_eq, Set.mem_insert_iff, Bool.or_eq_true, decide_eq_true_eq]
  constructor
  · rintro ⟨bound, rfl | set⟩
    · exact .inl rfl
    · exact .inr ⟨bound, set⟩
  · rintro (rfl | ⟨bound, set⟩)
    · exact ⟨inside, .inl rfl⟩
    · exact ⟨bound, .inr set⟩

theorem used_clearBitAt {size : Nat} :
    used (clearBitAt view start per k) start per size = used view start per size \ {k} := by
  ext k'
  simp only [used, bitAt_clearBitAt, Set.mem_ofPred_eq, Set.mem_sdiff, Set.mem_singleton_iff, Bool.and_eq_true,
    Bool.not_eq_true', decide_eq_false_iff_not]
  tauto

theorem used_congr {blocks : Nat} (same : ∀ n, start ≤ n → n < start + blocks → view' n = view n) :
    used view' start per (blocks * per) = used view start per (blocks * per) := by
  ext k'
  simp only [used, Set.mem_ofPred_eq]
  exact and_congr_right fun inside => by rw [bitAt_congr inside same]

/-- All bits from one on and before another are set. -/
def Full (view : Nat → Bytes) (start per first last : Nat) : Prop :=
  ∀ k, first ≤ k → k < last → bitAt view start per k = true

theorem Full.append {first middle last : Nat} (low : Full view start per first middle)
    (high : Full view start per middle last) : Full view start per first last := by
  intro k late early
  by_cases before : k < middle
  · exact low k late before
  · exact high k (Nat.not_lt.mp before) early

theorem Full.nil (view : Nat → Bytes) (start per first : Nat) : Full view start per first first :=
  fun _ late early => absurd early (Nat.not_lt.mpr late)

/-- Where the first clear bit of a bitmap is, if there is one. -/
structure FirstClear (view : Nat → Bytes) (start per first last k : Nat) : Prop where
  late : first ≤ k
  inside : k < last
  before : Full view start per first k
  clear : bitAt view start per k = false

theorem FirstClear.extend {first first' last k : Nat} (low : Full view start per first first')
    (before : first ≤ first') (found : FirstClear view start per first' last k) :
    FirstClear view start per first last k :=
  ⟨Nat.le_trans before found.late, found.inside, low.append found.before, found.clear⟩

section Block

variable {i j : Nat}

theorem bitAt_add (room : j < per) : bitAt view start per (j + i * per) = (view (start + i)).bit j := by
  unfold bitAt
  rw [Nat.add_mul_div_right _ _ (Nat.zero_lt_of_lt room), Nat.div_eq_of_lt room, Nat.zero_add,
    Nat.add_mul_mod_self_right, Nat.mod_eq_of_lt room]

theorem setBitAt_add (room : j < per) : setBitAt view start per (j + i * per) =
    Function.update view (start + i) ((view (start + i)).setBit j) := by
  unfold setBitAt
  rw [Nat.add_mul_div_right _ _ (Nat.zero_lt_of_lt room), Nat.div_eq_of_lt room, Nat.zero_add,
    Nat.add_mul_mod_self_right, Nat.mod_eq_of_lt room]

/-- The bits of one block before a place in it. -/
theorem full_block {stop : Nat} (room : stop ≤ per) (set : ∀ j < stop, (view (start + i)).bit j = true) :
    Full view start per (i * per) (stop + i * per) := by
  intro k late early
  obtain ⟨j, rfl⟩ := Nat.exists_eq_add_of_le' late
  have inside : j < stop := Nat.lt_of_add_lt_add_right early
  rw [bitAt_add (Nat.lt_of_lt_of_le inside room)]
  exact set j inside

/-- The first zero bit of one block. -/
theorem firstClear_block {last : Nat} (words : per % 16 = 0)
    (room : (view (start + i)).findFirstZeroBit per < per) (block : (i + 1) * per ≤ last) :
    FirstClear view start per (i * per) last ((view (start + i)).findFirstZeroBit per + i * per) := by
  obtain ⟨below, zero⟩ := Bytes.findFirstZeroBit_spec (view (start + i)) words
  rw [Nat.succ_mul] at block
  refine ⟨by omega, by omega, full_block (Nat.le_of_lt room) below, ?_⟩
  rw [bitAt_add room]
  exact zero room

theorem full_of_findFirst (words : per % 16 = 0)
    (none : ¬ (view (start + i)).findFirstZeroBit per < per) :
    Full view start per (i * per) ((i + 1) * per) := by
  obtain ⟨below, _⟩ := Bytes.findFirstZeroBit_spec (view (start + i)) words
  rw [Nat.succ_mul, Nat.add_comm]
  exact full_block (Nat.le_refl _) fun j less => below j (Nat.lt_of_lt_of_le less (Nat.not_lt.mp none))

end Block

end BlockBitmap

namespace NumberPool

inductive Event where
  | took (n : Nat)
  | refused
  | gave (n : Nat)
  deriving DecidableEq, Repr

/-- What a pool may do while these numbers are in use: it refuses only if no valid one is free. -/
def Event.Step (valid used : Set Nat) : Event → Set Nat → Prop
  | .took n, used' => n ∈ valid ∧ n ∉ used ∧ used' = insert n used
  | .refused, used' => valid ⊆ used ∧ used' = used
  | .gave n, used' => n ∈ used ∧ used' = used \ {n}

/-- A step of one of several pools. -/
def Step {ι : Type} (valid used : ι → Set Nat) (event : ι × Event) (used' : ι → Set Nat) : Prop :=
  event.2.Step (valid event.1) (used event.1) (used' event.1) ∧ ∀ other ≠ event.1, used' other = used other

/-- One event after the other. -/
inductive Runs {ι : Type} (valid : ι → Set Nat) : (ι → Set Nat) → List (ι × Event) → (ι → Set Nat) → Prop
  | nil (used : ι → Set Nat) : Runs valid used [] used
  | cons {used used₁ used' : ι → Set Nat} {event : ι × Event} {events : List (ι × Event)}
      (step : Step valid used event used₁) (rest : Runs valid used₁ events used') :
      Runs valid used (event :: events) used'

end NumberPool

end MPStuBS
