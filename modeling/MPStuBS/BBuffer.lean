import Mathlib.Data.List.Basic
import Mathlib.Logic.Function.Basic
import Mathlib.Tactic.SplitIfs

/-! `object/bbuffer.h`: a ring of `cap` slots, one of which always stays free. The
statements of `produce` and `consume` are operations of their own, because the two may
run interleaved; `contents` is the queue that the ring stands for. -/
namespace MPStuBS

/-- `input` is called `in` in the source; `unsigned` holds every index and its successor. -/
structure BBuffer (T : Type) (cap : Nat) where
  data : Fin cap → T
  input : Fin cap
  out : Fin cap

namespace BBuffer

variable {T : Type} {cap : Nat}

/-- The slots are not initialised. -/
def new (supported : 1 < cap) (data : Fin cap → T) : BBuffer T cap where
  data := data
  input := ⟨0, by omega⟩
  out := ⟨0, by omega⟩

def next (index : Fin cap) : Fin cap := ⟨(index + 1) % cap, Nat.mod_lt _ index.pos⟩

/-- `data[in] = val`. -/
def store (b : BBuffer T cap) (val : T) : BBuffer T cap :=
  { b with data := Function.update b.data b.input val }

/-- `in = nextin`. -/
def publish (b : BBuffer T cap) : BBuffer T cap := { b with input := next b.input }

/-- `out = (out + 1) % CAP`. -/
def release (b : BBuffer T cap) : BBuffer T cap := { b with out := next b.out }

def produce (b : BBuffer T cap) (val : T) : Bool × BBuffer T cap :=
  if next b.input ≠ b.out then (true, (b.store val).publish) else (false, b)

def consume (b : BBuffer T cap) : Option T × BBuffer T cap :=
  if b.input ≠ b.out then (some (b.data b.out), b.release) else (none, b)

/-- How many slots are taken. -/
def length (b : BBuffer T cap) : Nat :=
  if b.out.val ≤ b.input.val then b.input.val - b.out.val else b.input.val + cap - b.out.val

def slot (b : BBuffer T cap) (i : Nat) : Fin cap := ⟨(b.out + i) % cap, Nat.mod_lt _ b.out.pos⟩

/-- The elements from the oldest to the newest. -/
def contents (b : BBuffer T cap) : List T := (List.range b.length).map fun i => b.data (b.slot i)

section Arithmetic

theorem wrap {a i : Nat} (ha : a < cap) (hi : i ≤ cap) :
    (a + i) % cap = if a + i < cap then a + i else a + i - cap := by
  split
  case isTrue small => exact Nat.mod_eq_of_lt small
  case isFalse big =>
    rw [Nat.mod_eq_sub_mod (by omega)]
    exact Nat.mod_eq_of_lt (by omega)

theorem next_val (index : Fin cap) :
    (next index).val = if index.val + 1 < cap then index.val + 1 else 0 := by
  have bound := index.isLt
  refine (wrap bound (show 1 ≤ cap by omega)).trans ?_
  split_ifs <;> omega

variable (b : BBuffer T cap)

theorem length_lt : b.length < cap := by
  have := b.input.isLt
  have := b.out.isLt
  unfold length
  split_ifs <;> omega

theorem slot_val {i : Nat} (h : i ≤ cap) :
    (b.slot i).val = if b.out.val + i < cap then b.out.val + i else b.out.val + i - cap :=
  wrap b.out.isLt h

theorem empty_iff : b.input = b.out ↔ b.length = 0 := by
  have := b.input.isLt
  have := b.out.isLt
  rw [Fin.ext_iff, length]
  split_ifs <;> omega

theorem full_iff : next b.input = b.out ↔ b.length + 1 = cap := by
  have := b.input.isLt
  have := b.out.isLt
  rw [Fin.ext_iff, next_val, length]
  split_ifs <;> omega

theorem slot_length : b.slot b.length = b.input := by
  have := b.input.isLt
  have := b.out.isLt
  rw [Fin.ext_iff, slot_val b (Nat.le_of_lt b.length_lt), length]
  split_ifs <;> omega

theorem slot_ne {i : Nat} (h : i < b.length) : b.slot i ≠ b.input := by
  have := b.length_lt
  rw [← b.slot_length, Ne, Fin.ext_iff, slot_val b (by omega), slot_val b (by omega)]
  split_ifs <;> omega

theorem length_publish (room : b.length + 1 < cap) : b.publish.length = b.length + 1 := by
  have := b.input.isLt
  have := b.out.isLt
  simp only [publish, length, next_val] at room ⊢
  split_ifs at room ⊢ <;> omega

theorem length_release (taken : 0 < b.length) : b.release.length + 1 = b.length := by
  have := b.input.isLt
  have := b.out.isLt
  simp only [release, length, next_val] at taken ⊢
  split_ifs at taken ⊢ <;> omega

theorem slot_release {i : Nat} (h : i + 1 < cap) : b.release.slot i = b.slot (i + 1) := by
  have := b.out.isLt
  rw [Fin.ext_iff, slot_val _ (by omega), slot_val b (by omega)]
  simp only [release, next_val]
  split_ifs <;> omega

end Arithmetic

section Contents

variable {b : BBuffer T cap}

@[simp] theorem length_contents (b : BBuffer T cap) : b.contents.length = b.length := by
  simp [contents]

theorem contents_new (supported : 1 < cap) (data : Fin cap → T) :
    (new supported data).contents = [] := by
  simp [contents, length, new]

/-- A free slot may be written at any time. -/
@[simp] theorem contents_store (b : BBuffer T cap) (val : T) : (b.store val).contents = b.contents := by
  apply List.map_congr_left
  intro i member
  have before : i < b.length := List.mem_range.mp member
  exact Function.update_of_ne (b.slot_ne before) val b.data

theorem contents_publish (room : b.length + 1 < cap) :
    b.publish.contents = b.contents ++ [b.data b.input] := by
  have last : b.publish.data (b.publish.slot b.length) = b.data b.input := congrArg b.data b.slot_length
  rw [contents, length_publish b room, List.range_succ, List.map_append, List.map_singleton, last]
  rfl

theorem contents_release (taken : 0 < b.length) :
    b.contents = b.data b.out :: b.release.contents := by
  have first : b.slot 0 = b.out := by
    rw [Fin.ext_iff, slot_val b (by omega)]
    simp
  have bound := b.length_lt
  have less := length_release b taken
  rw [contents, contents, ← less, List.range_succ_eq_map, List.map_cons, first, List.map_map]
  congr 1
  apply List.map_congr_left
  intro i member
  have : i < b.release.length := List.mem_range.mp member
  exact congrArg b.data (b.slot_release (by omega)).symm

theorem produce_spec (b : BBuffer T cap) (val : T) :
    (b.length + 1 = cap ∧ b.produce val = (false, b)) ∨
    ∃ after, b.produce val = (true, after) ∧ after.contents = b.contents ++ [val] := by
  by_cases full : next b.input = b.out
  · exact .inl ⟨b.full_iff.mp full, by simp [produce, full]⟩
  · have bound := b.length_lt
    have room : (b.store val).length + 1 < cap := by
      have := mt b.full_iff.mpr full
      show b.length + 1 < cap
      omega
    refine .inr ⟨(b.store val).publish, by simp [produce, full], ?_⟩
    rw [contents_publish room, contents_store]
    simp [store]

theorem consume_spec (b : BBuffer T cap) :
    (b.contents = [] ∧ b.consume = (none, b)) ∨
    ∃ val after, b.consume = (some val, after) ∧ b.contents = val :: after.contents := by
  by_cases empty : b.input = b.out
  · refine .inl ⟨List.eq_nil_of_length_eq_zero ?_, by simp [consume, empty]⟩
    rw [length_contents]
    exact b.empty_iff.mp empty
  · refine .inr ⟨b.data b.out, b.release, by simp [consume, empty], contents_release ?_⟩
    exact Nat.pos_of_ne_zero (mt b.empty_iff.mpr empty)

end Contents
end BBuffer
end MPStuBS
