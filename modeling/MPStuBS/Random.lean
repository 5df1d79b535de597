import MPStuBS.MachineWords
import Mathlib.Algebra.Group.Nat.Defs

/-! The random numbers of `utils/random.cc`, and the recurrence that they follow. -/
namespace MPStuBS

namespace Random

abbrev Word := BitVec 32

def N : Nat := 624
def M : Nat := 397
def A : Word := 0x9908B0DF
def F : Word := 1812433253
def B : Word := 0x9D2C5680
def C : Word := 0xEFC60000
def maskLower : Word := 0x7FFFFFFF
def maskUpper : Word := 0x80000000

def set (mt : Nat → Word) (i : Nat) (value : Word) : Nat → Word := fun k => if k = i then value else mt k

/-- The loop of the constructor. -/
def seedStep (mt : Nat → Word) (i : Nat) : Nat → Word :=
  set mt i (F * (mt (i - 1) ^^^ mt (i - 1) >>> 30) + BitVec.ofNat 32 i)

/-- The loop that regenerates the array in place. -/
def twistStep (mt : Nat → Word) (i : Nat) : Nat → Word :=
  let x := (mt i &&& maskUpper) + (mt ((i + 1) % N) &&& maskLower)
  let xA := x >>> 1
  let xA := if x &&& 1 ≠ 0 then xA ^^^ A else xA
  set mt i (mt ((i + M) % N) ^^^ xA)

def twist (mt : Nat → Word) : Nat → Word := (upTo 0 N).foldl twistStep mt

def temper (y : Word) : Word :=
  let y := y ^^^ y >>> 11
  let y := y ^^^ (y <<< 7 &&& B)
  let y := y ^^^ (y <<< 15 &&& C)
  y ^^^ y >>> 18

end Random

structure Random where
  mt : Nat → Random.Word
  index : Nat

namespace Random

/-- The array has some contents before. -/
def construct (memory : Nat → Word) (seed : Word) : Random := ⟨(upTo 1 N).foldl seedStep (set memory 0 seed), N⟩

/-- The next number; there is none if the index is outside of the array. -/
def number (r : Random) : Option (Word × Random) :=
  let r := if N ≤ r.index then ⟨twist r.mt, 0⟩ else r
  if r.index < N then some (temper (r.mt r.index), { r with index := r.index + 1 }) else none

/-- The state after some calls. -/
def calls : Nat → Random → Option Random
  | 0, r => some r
  | j + 1, r => (calls j r).bind fun r => r.number.map Prod.snd

section Recurrence

/-- The state that a seed leads to. -/
def seeded (seed : Word) : Nat → Word
  | 0 => seed
  | i + 1 => F * (seeded seed i ^^^ seeded seed i >>> 30) + BitVec.ofNat 32 (i + 1)

/-- Mixes the upper bit of one word with the lower bits of the next one. -/
def mix (upper lower : Word) : Word :=
  let y := (upper &&& maskUpper) ||| (lower &&& maskLower)
  if y.getLsbD 0 then y >>> 1 ^^^ A else y >>> 1

/-- The sequence of the generator. -/
def x (seed : Word) (k : Nat) : Word :=
  if k < 624 then seeded seed k else x seed (k - 227) ^^^ mix (x seed (k - 624)) (x seed (k - 623))
termination_by k

variable {seed : Word}

theorem x_start {k : Nat} (less : k < 624) : x seed k = seeded seed k := by
  rw [x, if_pos less]

theorem x_next (seed : Word) (k : Nat) : x seed (k + 624) = x seed (k + 397) ^^^ mix (x seed k) (x seed (k + 1)) := by
  rw [x, if_neg (by omega), show k + 624 - 227 = k + 397 by omega, Nat.add_sub_cancel, show k + 624 - 623 = k + 1 by omega]

end Recurrence

section Batches

variable {seed : Word} {mt : Nat → Word} {base : Nat}

theorem set_same {i : Nat} {value : Word} : set mt i value i = value := if_pos rfl

theorem set_other {i k : Nat} {value : Word} (apart : k ≠ i) : set mt i value k = mt k := if_neg apart

theorem construct_seeded (memory : Nat → Word) (seed : Word) : ∀ k < 624, (construct memory seed).mt k = seeded seed k := by
  have step : ∀ i (mt : Nat → Word), 1 ≤ i → i < N → (∀ k < i, mt k = seeded seed k) →
      ∀ k < i + 1, seedStep mt i k = seeded seed k := by
    intro i mt low _ before k below
    unfold seedStep
    by_cases here : k = i
    · obtain ⟨i, rfl⟩ := Nat.exists_eq_add_of_le' low
      rw [here, set_same, Nat.add_sub_cancel, before i (Nat.lt_succ_self i)]
      rfl
    · rw [set_other here]
      exact before k (by omega)
  have start : ∀ k < 1, set memory 0 seed k = seeded seed k := by
    intro k first
    obtain rfl : k = 0 := by omega
    exact set_same
  have whole := upTo_carries (fun i (mt : Nat → Word) => ∀ k < i, mt k = seeded seed k) (show 1 ≤ N by decide) step start
  unfold construct
  dsimp only
  exact whole

/-- The bits of the two parts of a word are apart. -/
theorem mix_eq (upper lower : Word) :
    (let x := (upper &&& maskUpper) + (lower &&& maskLower)
     let xA := x >>> 1
     if x &&& 1 ≠ 0 then xA ^^^ A else xA) = mix upper lower := by
  have apart : (upper &&& maskUpper) + (lower &&& maskLower) = (upper &&& maskUpper) ||| (lower &&& maskLower) := by
    refine BitVec.add_eq_or_of_and_eq_zero _ _ ?_
    rw [BitVec.and_comm lower, BitVec.and_assoc, ← BitVec.and_assoc maskUpper, show maskUpper &&& maskLower = 0#32 by decide,
      BitVec.zero_and, BitVec.and_zero]
  unfold mix
  dsimp only
  rw [apart, show (1 : Word) = 1#32 from rfl, BitVec.and_one_eq_setWidth_ofBool_getLsbD]
  cases ((upper &&& maskUpper) ||| (lower &&& maskLower)).getLsbD 0 <;> rfl

/-- While the array is regenerated, its first words are those of the next batch and the others are still old. -/
def Between (seed : Word) (base i : Nat) (mt : Nat → Word) : Prop :=
  ∀ k < 624, mt k = if k < i then x seed (base + 624 + k) else x seed (base + k)

/-- A word ahead of the position, around the end of the array, is in any case the one ahead in the sequence. -/
theorem Between.ahead {i d : Nat} (between : Between seed base i mt) (below : i < 624) (positive : 0 < d) (less : d < 624) :
    mt ((i + d) % 624) = x seed (base + i + d) := by
  by_cases around : i + d < 624
  · rw [Nat.mod_eq_of_lt around, between _ around, if_neg (by omega), Nat.add_assoc]
  · rw [Nat.mod_eq_sub_mod (by omega), Nat.mod_eq_of_lt (by omega), between _ (by omega), if_pos (by omega)]
    exact congrArg (x seed) (by omega)

theorem twistStep_between {i : Nat} (below : i < 624) (between : Between seed base i mt) :
    Between seed base (i + 1) (twistStep mt i) := by
  intro k inside
  unfold twistStep
  by_cases here : k = i
  · rw [here, set_same, if_pos (Nat.lt_succ_self i)]
    have here := between i below
    rw [if_neg (Nat.lt_irrefl i)] at here
    have recurrence := x_next seed (base + i)
    rw [show base + i + 624 = base + 624 + i by omega] at recurrence
    rw [recurrence, ← mix_eq, ← here, ← between.ahead (d := 1) below (by decide) (by decide),
      ← between.ahead (d := 397) below (by decide) (by decide)]
    rfl
  · rw [set_other here, between k inside]
    by_cases before : k < i
    · rw [if_pos before, if_pos (by omega)]
    · rw [if_neg before, if_neg (by omega)]

/-- One pass over the array in place gives the next batch of the sequence. -/
theorem twist_batch (batch : ∀ k < 624, mt k = x seed (base + k)) : ∀ k < 624, twist mt k = x seed (base + 624 + k) := by
  have whole : Between seed base 624 (twist mt) :=
    upTo_carries (Between seed base) (by decide) (fun i mt _ below between => twistStep_between below between)
      fun k inside => (batch k inside).trans (if_neg (Nat.not_lt_zero k)).symm
  intro k inside
  rw [whole k inside, if_pos inside]

end Batches

section Calls

/-- The array holds a batch of the sequence, and the index is where the calls have come to. -/
structure Holds (seed : Word) (j : Nat) (r : Random) (base : Nat) : Prop where
  batch : ∀ k < 624, r.mt k = x seed (base + k)
  whole : base % 624 = 0
  place : base + r.index = 624 + j
  inside : r.index ≤ 624

variable {seed : Word} {r : Random} {j base : Nat}

theorem construct_holds (memory : Nat → Word) (seed : Word) : Holds seed 0 (construct memory seed) 0 where
  batch k inside := by rw [construct_seeded memory seed k inside, Nat.zero_add, x_start inside]
  whole := rfl
  place := rfl
  inside := Nat.le_refl _

theorem number_holds (holds : Holds seed j r base) :
    ∃ r' base', r.number = some (temper (x seed (624 + j)), r') ∧ Holds seed (j + 1) r' base' ∧ 0 < r'.index := by
  obtain ⟨batch, whole, place, inside⟩ := holds
  unfold number N
  by_cases last : 624 ≤ r.index
  · rw [if_pos last]
    dsimp only
    rw [if_pos (show 0 < 624 by decide), twist_batch batch 0 (by decide), show base + 624 + 0 = 624 + j by omega]
    refine ⟨_, base + 624, rfl, ⟨?_, by omega, by dsimp only; omega, by dsimp only; omega⟩, Nat.succ_pos _⟩
    dsimp only
    exact twist_batch batch
  · have below : r.index < 624 := Nat.lt_of_not_le last
    rw [if_neg last]
    dsimp only
    rw [if_pos below, batch _ below, place]
    exact ⟨_, base, rfl, ⟨batch, whole, by dsimp only; omega, below⟩, Nat.succ_pos _⟩

theorem calls_hold (memory : Nat → Word) (seed : Word) (j : Nat) :
    ∃ r base, calls j (construct memory seed) = some r ∧ Holds seed j r base := by
  induction j with
  | zero => exact ⟨_, 0, rfl, construct_holds memory seed⟩
  | succ j ih =>
    obtain ⟨r, base, here, holds⟩ := ih
    obtain ⟨r', base', next, holds', -⟩ := number_holds holds
    refine ⟨r', base', ?_, holds'⟩
    unfold calls
    rw [here, Option.bind_some, next]
    rfl

/-- Every call gives the next word of the sequence, tempered, and leaves the batch of that word in the array. -/
theorem number_eq (memory : Nat → Word) (seed : Word) (j : Nat) :
    ∃ r r', calls j (construct memory seed) = some r ∧ r.number = some (temper (x seed (624 + j)), r') ∧
      r'.index = j % 624 + 1 ∧ ∀ k < 624, r'.mt k = x seed (624 * (j / 624 + 1) + k) := by
  obtain ⟨r, base, here, holds⟩ := calls_hold memory seed j
  obtain ⟨r', base', next, ⟨batch, whole, place, inside⟩, positive⟩ := number_holds holds
  have multiple : base' = 624 * (j / 624 + 1) := by omega
  exact ⟨r, r', here, next, by omega, multiple ▸ batch⟩

/-- The first number from the seed 5489, the one that the reference implementation of the generator starts
with. -/
theorem number_of_5489 : ∃ r, (construct (fun _ => 0) 5489).number = some (3499211612, r) := by
  obtain ⟨r, r', here, next, -⟩ := number_eq (fun _ => 0) 5489 0
  obtain rfl : construct (fun _ => 0) 5489 = r := Option.some.inj here
  have value : temper (x 5489 (624 + 0)) = 3499211612 := by
    rw [Nat.add_comm, x_next 5489 0, x_start (by decide), x_start (by decide), x_start (by decide)]
    decide +kernel
  exact ⟨r', value ▸ next⟩

end Calls

end Random

end MPStuBS
