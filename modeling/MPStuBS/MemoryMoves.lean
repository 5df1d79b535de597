import MPStuBS.BoundedCopy
import Mathlib.Logic.Basic

/-! Copies of memory: `memcpy` and `memmove` of `utils/string.cc`, for areas that may overlap. -/
namespace MPStuBS.CString

/-- A loop over the indices from `i` on, `n` of them. -/
def forward (dest src : Address) : Nat → Nat → State → State
  | _, 0, s => s
  | i, n + 1, s => forward dest src (i + 1) n (s.store (dest.ahead i) (s.byte (src.ahead i)))

/-- A loop over the indices below `i`, the last one first. -/
def backward (dest src : Address) : Nat → State → State
  | 0, s => s
  | i + 1, s => backward dest src i (s.store (dest.ahead i) (s.byte (src.ahead i)))

def memcpy (s : State) (dest src : Address) (size : BitVec 64) : Address × State :=
  (dest, forward dest src 0 size.toNat s)

def memmove (s : State) (dest src : Address) (size : BitVec 64) : Address × State :=
  (dest, if src > dest then forward dest src 0 size.toNat s else backward dest src size.toNat s)

/-- The destination has what was in the source, and the rest of the memory what it had. -/
def Moved (s : State) (dest src : Address) (n : Nat) (after : State) : Prop :=
  ∀ a, after.byte a = if (a - dest).toNat < n then s.byte (src + (a - dest)) else s.byte a

section Areas

variable {s s₀ : State} {dest src a : Address} {n i lo hi : Nat}

/-- The bytes of the destination from one index to another are moved. -/
def MovedFrom (s₀ : State) (dest src : Address) (lo hi : Nat) (s : State) : Prop :=
  ∀ a, s.byte a = if lo ≤ (a - dest).toNat ∧ (a - dest).toNat < hi then s₀.byte (src + (a - dest)) else s₀.byte a

theorem movedFrom_nothing (s : State) (dest src : Address) (i : Nat) : MovedFrom s dest src i i s :=
  fun _ => (if_neg (by omega)).symm

theorem ahead_ahead_sub (dest src : Address) (i : Nat) : src + (dest.ahead i - dest) = src.ahead i := by
  unfold Address.ahead
  bv_omega

theorem MovedFrom.up (moved : MovedFrom s₀ dest src lo i s) (low : lo ≤ i) (small : i < 2 ^ 64)
    (untouched : ∀ j, lo ≤ j → j < i → dest.ahead j ≠ src.ahead i) :
    MovedFrom s₀ dest src lo (i + 1) (s.store (dest.ahead i) (s.byte (src.ahead i))) := by
  intro a
  by_cases this : a = dest.ahead i
  · subst this
    rw [store_same, ahead_sub small, if_pos ⟨low, Nat.lt_succ_self i⟩, ahead_ahead_sub, moved,
      if_neg fun inside => untouched _ inside.1 inside.2 (ahead_distance _ _)]
  · have other : (a - dest).toNat ≠ i := fun same => this ((ahead_distance dest a).symm.trans (congrArg _ same))
    have same : (lo ≤ (a - dest).toNat ∧ (a - dest).toNat < i + 1) ↔
        (lo ≤ (a - dest).toNat ∧ (a - dest).toNat < i) := by omega
    rw [store_other this, moved, if_congr same rfl rfl]

theorem MovedFrom.down (moved : MovedFrom s₀ dest src (i + 1) hi s) (high : i < hi) (small : i < 2 ^ 64)
    (untouched : ∀ j, i < j → j < hi → dest.ahead j ≠ src.ahead i) :
    MovedFrom s₀ dest src i hi (s.store (dest.ahead i) (s.byte (src.ahead i))) := by
  intro a
  by_cases this : a = dest.ahead i
  · subst this
    rw [store_same, ahead_sub small, if_pos ⟨Nat.le_refl i, high⟩, ahead_ahead_sub, moved,
      if_neg fun inside => untouched _ inside.1 inside.2 (ahead_distance _ _)]
  · have other : (a - dest).toNat ≠ i := fun same => this ((ahead_distance dest a).symm.trans (congrArg _ same))
    have same : (i + 1 ≤ (a - dest).toNat ∧ (a - dest).toNat < hi) ↔
        (i ≤ (a - dest).toNat ∧ (a - dest).toNat < hi) := by omega
    rw [store_other this, moved, if_congr same rfl rfl]

theorem forward_moves (small : i + n ≤ 2 ^ 64)
    (untouched : ∀ k j, j < k → k < i + n → dest.ahead j ≠ src.ahead k)
    (moved : MovedFrom s₀ dest src 0 i s) : MovedFrom s₀ dest src 0 (i + n) (forward dest src i n s) := by
  induction n generalizing i s with
  | zero => exact moved
  | succ n ih =>
    have next := moved.up (Nat.zero_le i) (by omega) fun j _ before => untouched i j before (by omega)
    have rest := ih (by omega) (fun k j before inside => untouched k j before (by omega)) next
    rw [Nat.add_right_comm] at rest
    exact rest

theorem backward_moves (small : hi ≤ 2 ^ 64) (high : i ≤ hi)
    (untouched : ∀ k j, k < j → j < hi → dest.ahead j ≠ src.ahead k)
    (moved : MovedFrom s₀ dest src i hi s) : MovedFrom s₀ dest src 0 hi (backward dest src i s) := by
  induction i generalizing s with
  | zero => exact moved
  | succ i ih =>
    exact ih (by omega) (moved.down (by omega) (by omega) fun j behind inside => untouched i j behind inside)

theorem MovedFrom.whole (moved : MovedFrom s₀ dest src 0 n s) : Moved s₀ dest src n s := by
  intro a
  rw [moved a, if_congr (and_iff_right (Nat.zero_le _)) rfl rfl]

end Areas

section Moves

variable {dest src : Address} {size : BitVec 64}

/-- An area does not go on at the first address behind the last one. -/
def Area (start : Address) (size : BitVec 64) : Prop := start.toNat + size.toNat ≤ 2 ^ 64

instance (start : Address) (size : BitVec 64) : Decidable (Area start size) := inferInstanceAs (Decidable (_ ≤ _))

/-- However two areas overlap, `memmove` moves the source to the destination and changes nothing else. -/
theorem memmove_moves (s : State) (source : Area src size) (destination : Area dest size) :
    (memmove s dest src size).1 = dest ∧ Moved s dest src size.toNat (memmove s dest src size).2 := by
  have bound : size.toNat ≤ 2 ^ 64 := Nat.le_of_lt size.isLt
  refine ⟨rfl, ?_⟩
  unfold Area at source destination
  unfold memmove
  dsimp only
  split
  · rename_i above
    have order : dest.toNat < src.toNat := above
    have moved := forward_moves (i := 0) (n := size.toNat) (by omega) (fun k j before inside same => by
      unfold Address.ahead at same
      bv_omega) (movedFrom_nothing s dest src 0)
    rw [Nat.zero_add] at moved
    exact moved.whole
  · rename_i above
    have order : src.toNat ≤ dest.toNat := Nat.le_of_not_lt above
    exact (backward_moves bound (Nat.le_refl _) (fun k j behind inside same => by
      unfold Address.ahead at same
      bv_omega) (movedFrom_nothing s dest src _)).whole

/-- Both meet the end of the address space, the source below the destination. -/
theorem edge_moves : Moved ⟨fun a => if a = 0xfffffffffffffffd then 7 else 8, []⟩ 0xfffffffffffffffe 0xfffffffffffffffd 2
    (memmove ⟨fun a => if a = 0xfffffffffffffffd then 7 else 8, []⟩ 0xfffffffffffffffe 0xfffffffffffffffd 2).2 :=
  (memmove_moves _ (show Area 0xfffffffffffffffd 2 by decide) (show Area 0xfffffffffffffffe 2 by decide)).2

/-- The source is overwritten before it is read: the destination starts in it, behind its first byte. -/
def StartsInside (dest src : Address) (n : Nat) : Prop := 0 < (dest - src).toNat ∧ (dest - src).toNat < n

theorem forward_keeps {s : State} {a : Address} : ∀ {n i : Nat}, (∀ j, i ≤ j → j < i + n → a ≠ dest.ahead j) →
    (forward dest src i n s).byte a = s.byte a
  | 0, _, _ => rfl
  | n + 1, i, other => by
    rw [forward, forward_keeps fun j least most => other j (by omega) (by omega),
      store_other (other i (Nat.le_refl i) (by omega))]

theorem forward_append (dest src : Address) (s : State) : ∀ m i n : Nat,
    forward dest src i (m + n) s = forward dest src (i + m) n (forward dest src i m s)
  | 0, i, n => by
    rw [Nat.zero_add]
    rfl
  | m + 1, i, n => by
    rw [Nat.add_right_comm, forward, forward_append dest src _ m (i + 1) n, Nat.add_right_comm i 1 m]
    rfl

/-- A byte that marks the start of the source comes to the destination twice. -/
theorem memcpy_repeats (inside : StartsInside dest src size.toNat) :
    ¬ Moved ⟨fun a => if a = src then 1 else 0, []⟩ dest src size.toNat
      (memcpy ⟨fun a => if a = src then 1 else 0, []⟩ dest src size).2 := by
  obtain ⟨positive, before⟩ := inside
  have small := size.isLt
  generalize distance : (dest - src).toNat = d at positive before
  generalize start : (⟨fun a => if a = src then 1 else 0, []⟩ : State) = s
  have marked : ∀ a, s.byte a = if a = src then 1 else 0 := by
    intro a
    rw [← start]
  have split' : size.toNat = d + (1 + (size.toNat - d - 1)) := by omega
  have first : MovedFrom s dest src 0 (0 + d) (forward dest src 0 d s) :=
    forward_moves (by omega) (fun k j earlier inside same => by
      unfold Address.ahead at same
      bv_omega) (movedFrom_nothing s dest src 0)
  have ahead : src.ahead d = dest := by rw [← distance, ahead_distance]
  have copied : (forward dest src 0 d s).byte dest = 1 := by
    have at' := first dest
    rw [BitVec.sub_self, if_pos ⟨Nat.zero_le _, by simpa using positive⟩, BitVec.add_zero, marked, if_pos rfl] at at'
    exact at'
  have last : (memcpy s dest src size).2.byte (dest.ahead d) = 1 := by
    unfold memcpy
    dsimp only
    rw [split', forward_append, forward_append, forward_keeps fun j least most same => by
      have equal := ahead_inj (by omega) (by omega) same
      omega]
    rw [Nat.zero_add, forward, forward, store_same, ahead, copied]
  intro moved
  have expected := moved (dest.ahead d)
  rw [last, ahead_sub (by omega), if_pos before, ahead_ahead_sub, marked, if_neg] at expected
  · exact absurd expected (by decide)
  · intro same
    have equal := ahead_inj (i := d) (j := 0) (by omega) (by omega) (same.trans (ahead_zero src).symm)
    omega

/-- Without that, `memcpy` does what `memmove` does. -/
theorem memcpy_moves_iff : (∀ s, Moved s dest src size.toNat (memcpy s dest src size).2) ↔
    ¬ StartsInside dest src size.toNat := by
  constructor
  · exact fun moves inside => memcpy_repeats inside (moves _)
  · intro outside s
    have bound : size.toNat ≤ 2 ^ 64 := Nat.le_of_lt size.isLt
    have moved := forward_moves (i := 0) (n := size.toNat) (by omega) (fun k j before inside same => by
      refine outside ?_
      unfold StartsInside
      unfold Address.ahead at same
      bv_omega) (movedFrom_nothing s dest src 0)
    rw [Nat.zero_add] at moved
    exact moved.whole

end Moves

end MPStuBS.CString
