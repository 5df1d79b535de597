import Mathlib.Algebra.BigOperators.Group.Finset.Basic
import Mathlib.Algebra.BigOperators.Ring.Finset
import Mathlib.Algebra.Order.BigOperators.Group.Finset
import Mathlib.Data.Finset.Card
import Mathlib.Tactic.Ring

/-! Binary prefix codes: Kraft sums, the nodes of the tree of a complete code, and the canonical code
with given lengths. -/
namespace MPStuBS.PrefixCode

open Finset

variable {S : Finset (List Bool)} {u v w : List Bool} {depth : Nat}

def Free (S : Finset (List Bool)) : Prop := ∀ u ∈ S, ∀ v ∈ S, u <+: v → u = v

/-- The words that go on to a word of the set. -/
def stems (S : Finset (List Bool)) : Finset (List Bool) := S.biUnion fun w => (range w.length).image w.take

theorem mem_stems : u ∈ stems S ↔ ∃ w ∈ S, u <+: w ∧ u ≠ w := by
  unfold stems
  simp only [mem_biUnion, mem_image, mem_range]
  refine exists_congr fun w => and_congr_right fun _ => ⟨?_, fun ⟨starts, other⟩ => ?_⟩
  · rintro ⟨i, inside, rfl⟩
    refine ⟨List.take_prefix i w, fun whole => ?_⟩
    have length := congrArg List.length whole
    rw [List.length_take] at length
    omega
  · refine ⟨u.length, Nat.lt_of_le_of_ne starts.length_le fun same => ?_, (List.prefix_iff_eq_take.mp starts).symm⟩
    exact other (starts.eq_of_length same)

/-- A word goes on with one of the bits, or it ends. -/
theorem prefix_cases : u <+: w ↔ u = w ∨ u ++ [false] <+: w ∨ u ++ [true] <+: w := by
  constructor
  · rintro ⟨rest, rfl⟩
    cases rest with
    | nil => exact .inl (List.append_nil u).symm
    | cons b rest =>
      have more : u ++ [b] <+: u ++ b :: rest := ⟨rest, by simp⟩
      cases b
      · exact .inr (.inl more)
      · exact .inr (.inr more)
  · rintro (rfl | more | more)
    · exact List.prefix_rfl
    all_goals exact (List.prefix_append u _).trans more

theorem not_prefix_both : ¬ (u ++ [false] <+: w ∧ u ++ [true] <+: w) := by
  rintro ⟨⟨rest, rfl⟩, ⟨rest', same⟩⟩
  simp at same

/-- The words below a node: those below its two children, and the node itself if it is a word. -/
theorem filter_extensions (T : Finset (List Bool)) (u : List Bool) : T.filter (u <+: ·) =
    (if u ∈ T then {u} else ∅) ∪ (T.filter (u ++ [false] <+: ·) ∪ T.filter (u ++ [true] <+: ·)) := by
  ext w
  simp only [mem_filter, mem_union]
  rw [prefix_cases]
  by_cases here : u ∈ T
  · rw [if_pos here, mem_singleton]
    constructor
    · rintro ⟨member, rfl | more | more⟩
      · exact .inl rfl
      · exact .inr (.inl ⟨member, more⟩)
      · exact .inr (.inr ⟨member, more⟩)
    · rintro (rfl | ⟨member, more⟩ | ⟨member, more⟩)
      · exact ⟨here, .inl rfl⟩
      · exact ⟨member, .inr (.inl more)⟩
      · exact ⟨member, .inr (.inr more)⟩
  · rw [if_neg here]
    simp only [notMem_empty, false_or]
    constructor
    · rintro ⟨member, rfl | more | more⟩
      · exact absurd member here
      · exact .inl ⟨member, more⟩
      · exact .inr ⟨member, more⟩
    · rintro (⟨member, more⟩ | ⟨member, more⟩)
      · exact ⟨member, .inr (.inl more)⟩
      · exact ⟨member, .inr (.inr more)⟩

theorem sum_filter_extensions (T : Finset (List Bool)) (f : List Bool → Nat) (u : List Bool) :
    ∑ w ∈ T with u <+: w, f w = (if u ∈ T then f u else 0) + (∑ w ∈ T with u ++ [false] <+: w, f w +
      ∑ w ∈ T with u ++ [true] <+: w, f w) := by
  have longer : ∀ b, ¬ u ++ [b] <+: u := fun b starts => by
    have length := starts.length_le
    rw [List.length_append, List.length_singleton] at length
    omega
  rw [filter_extensions, sum_union, sum_union]
  · split <;> simp
  · rw [disjoint_left]
    intro w zero one
    exact not_prefix_both ⟨(mem_filter.mp zero).2, (mem_filter.mp one).2⟩
  · rw [disjoint_left]
    intro w here more
    split at here
    · rw [mem_singleton] at here
      subst here
      rcases mem_union.mp more with more | more
      all_goals exact longer _ (mem_filter.mp more).2
    · exact notMem_empty w here

/-- The share of the words below a node. -/
def below (S : Finset (List Bool)) (depth : Nat) (u : List Bool) : Nat := ∑ w ∈ S with u <+: w, 2 ^ (depth - w.length)

section Kraft

variable (free : Free S) (bounded : ∀ w ∈ S, w.length ≤ depth)
include free

/-- Below a word there is no other. -/
theorem Free.filter (here : u ∈ S) : S.filter (u <+: ·) = {u} := by
  ext w
  rw [mem_filter, mem_singleton]
  constructor
  · rintro ⟨member, starts⟩
    exact (free u here w member starts).symm
  · rintro rfl
    exact ⟨here, List.prefix_rfl⟩

theorem Free.below_word (here : u ∈ S) : below S depth u = 2 ^ (depth - u.length) := by
  unfold below
  rw [free.filter here, sum_singleton]

omit free in
theorem below_split (outside : u ∉ S) : below S depth u = below S depth (u ++ [false]) + below S depth (u ++ [true]) := by
  unfold below
  rw [sum_filter_extensions, if_neg outside, Nat.zero_add]

include bounded

/-- The inequality of Kraft at a node. -/
theorem Free.below_le (n : Nat) : ∀ {u}, u.length + n = depth → below S depth u ≤ 2 ^ n := by
  induction n with
  | zero =>
    intro u deep
    by_cases here : u ∈ S
    · rw [free.below_word here, ← deep, Nat.add_zero, Nat.sub_self]
    · refine (Nat.le_of_eq (sum_eq_zero fun w member => ?_)).trans (Nat.zero_le _)
      obtain ⟨member, starts⟩ := mem_filter.mp member
      have length := bounded w member
      exact absurd (starts.eq_of_length (Nat.le_antisymm starts.length_le (by omega)) ▸ member) here
  | succ n ih =>
    intro u deep
    by_cases here : u ∈ S
    · rw [free.below_word here]
      exact Nat.le_of_eq (congrArg (2 ^ ·) (by omega))
    · have child : ∀ b, below S depth (u ++ [b]) ≤ 2 ^ n := fun b => ih (by simp; omega)
      rw [below_split here, Nat.pow_succ]
      have zero := child false
      have one := child true
      omega

/-- Where the words fill all that is below a node, there is one stem less than there are words. -/
theorem Free.card_below (n : Nat) : ∀ {u}, u.length + n = depth → below S depth u = 2 ^ n →
    (S.filter (u <+: ·)).card = ((stems S).filter (u <+: ·)).card + 1 := by
  have stem_below : ∀ {u}, u ∈ S → (stems S).filter (u <+: ·) = ∅ := by
    intro u here
    refine filter_eq_empty_iff.mpr fun v member starts => ?_
    obtain ⟨w, inside, goes, other⟩ := mem_stems.mp member
    have same := free u here w inside (starts.trans goes)
    subst same
    exact other (goes.eq_of_length (Nat.le_antisymm goes.length_le starts.length_le))
  induction n with
  | zero =>
    intro u deep full
    have here : u ∈ S := by
      by_contra outside
      have some : below S depth u ≠ 0 := by rw [full]; exact Nat.one_ne_zero
      refine some (sum_eq_zero fun w member => ?_)
      obtain ⟨member, starts⟩ := mem_filter.mp member
      have length := bounded w member
      exact absurd (starts.eq_of_length (Nat.le_antisymm starts.length_le (by omega)) ▸ member) outside
    rw [free.filter here, stem_below here]
    rfl
  | succ n ih =>
    intro u deep full
    by_cases here : u ∈ S
    · rw [free.filter here, stem_below here]
      rfl
    · have deeper : ∀ b, (u ++ [b]).length + n = depth := fun b => by simp; omega
      have zero := free.below_le bounded n (deeper false)
      have one := free.below_le bounded n (deeper true)
      rw [below_split here, Nat.pow_succ] at full
      have stem : u ∈ stems S := by
        have some : below S depth u ≠ 0 := by
          have positive := Nat.two_pow_pos n
          rw [below_split here]
          omega
        obtain ⟨w, member, -⟩ := exists_ne_zero_of_sum_ne_zero some
        obtain ⟨member, starts⟩ := mem_filter.mp member
        exact mem_stems.mpr ⟨w, member, starts, fun same => here (same ▸ member)⟩
      have words := sum_filter_extensions S (fun _ => 1) u
      have inner := sum_filter_extensions (stems S) (fun _ => 1) u
      rw [if_neg here] at words
      rw [if_pos stem] at inner
      simp only [← card_eq_sum_ones] at words inner
      have zero' := ih (deeper false) (by omega)
      have one' := ih (deeper true) (by omega)
      omega

/-- A complete code has one stem less than it has words. -/
theorem Free.card_stems (complete : ∑ w ∈ S, 2 ^ (depth - w.length) = 2 ^ depth) : S.card = (stems S).card + 1 := by
  have all : ∀ T : Finset (List Bool), T.filter ([] <+: ·) = T := fun T => filter_true_of_mem fun w _ => List.nil_prefix
  have counted := free.card_below bounded depth (u := []) (by simp) (by unfold below; rw [all, complete])
  rwa [all, all] at counted

end Kraft

section Bits

/-- The lowest bits of a number, the highest of them first. -/
def bits (length n : Nat) : List Bool := (List.range length).map fun i => n.testBit (length - 1 - i)

@[simp] theorem length_bits (length n : Nat) : (bits length n).length = length := by simp [bits]

theorem getElem?_bits {length n i : Nat} (inside : i < length) : (bits length n)[i]? = some (n.testBit (length - 1 - i)) := by
  simp [bits, List.getElem?_range inside]

/-- A number whose bits begin those of another is a quotient of it. -/
theorem eq_div_of_prefix {k l m n : Nat} (starts : bits k m <+: bits l n) (small : m < 2 ^ k) (small' : n < 2 ^ l) :
    m = n / 2 ^ (l - k) := by
  have length := starts.length_le
  rw [length_bits, length_bits] at length
  refine Nat.eq_of_testBit_eq fun j => ?_
  rw [Nat.testBit_div_two_pow]
  by_cases low : j < k
  · obtain ⟨rest, whole⟩ := starts
    have here := congrArg (·[k - 1 - j]?) whole
    rw [List.getElem?_append_left (by rw [length_bits]; omega), getElem?_bits (by omega), getElem?_bits (by omega)] at here
    have same := Option.some.inj here
    rwa [show k - 1 - (k - 1 - j) = j by omega, show l - 1 - (k - 1 - j) = j + (l - k) by omega] at same
  · rw [Nat.testBit_lt_two_pow (small.trans_le (Nat.pow_le_pow_right (by omega) (Nat.not_lt.mp low))),
      Nat.testBit_lt_two_pow (small'.trans_le (Nat.pow_le_pow_right (by omega) (by omega)))]

/-- The lowest bits of a number, the lowest first. -/
def low (length n : Nat) : List Bool := (List.range length).map n.testBit

@[simp] theorem length_low (length n : Nat) : (low length n).length = length := by simp [low]

def bitsOf (bitstream : List UInt8) : List Bool := bitstream.flatMap fun byte => low 8 byte.toNat

@[simp] theorem bitsOf_cons (byte : UInt8) (rest : List UInt8) : bitsOf (byte :: rest) = low 8 byte.toNat ++ bitsOf rest := rfl

@[simp] theorem length_bitsOf (bitstream : List UInt8) : (bitsOf bitstream).length = 8 * bitstream.length := by
  induction bitstream with
  | nil => rfl
  | cons byte rest ih =>
    rw [bitsOf_cons, List.length_append, length_low, ih, List.length_cons]
    omega

theorem getElem?_bitsOf (bitstream : List UInt8) : ∀ i, (bitsOf bitstream)[i]? =
    bitstream[i / 8]?.map fun byte => byte.toNat.testBit (i % 8) := by
  induction bitstream with
  | nil => simp [bitsOf]
  | cons byte rest ih =>
    intro i
    rw [bitsOf_cons, List.getElem?_append, length_low]
    split
    · rename_i first
      rw [Nat.div_eq_of_lt first, Nat.mod_eq_of_lt first]
      simp [low, List.getElem?_range first]
    · rename_i later
      obtain ⟨j, rfl⟩ : ∃ j, i = j + 8 := ⟨i - 8, by omega⟩
      rw [Nat.add_sub_cancel, ih, Nat.add_mod_right, Nat.add_div_right j (by decide), List.getElem?_cons_succ]

end Bits

section Canonical

variable (len : Nat → Nat) (count : Nat)

/-- The symbols that have a word. -/
def used : Finset Nat := {n ∈ range count | len n ≠ 0}

/-- Shorter words come first, and those of one length in the order of their symbols. -/
def Before (m n : Nat) : Prop := len m < len n ∨ len m = len n ∧ m < n

instance (m n : Nat) : Decidable (Before len m n) := by
  unfold Before
  infer_instance

/-- Every word follows the one before it as a number, with zeros for the bits that it has more. -/
def code (n : Nat) : Nat := ∑ m ∈ used len count with Before len m n, 2 ^ (len n - len m)

def word (n : Nat) : List Bool := bits (len n) (code len count n)

def words : Finset (List Bool) := (used len count).image (word len count)

/-- The lengths leave room for all words. -/
structure Fits (depth : Nat) : Prop where
  bounded : ∀ n ∈ used len count, len n ≤ depth
  kraft : ∑ n ∈ used len count, 2 ^ (depth - len n) ≤ 2 ^ depth

variable {len count} {m n : Nat} (fits : Fits len count depth)

@[simp] theorem length_word (n : Nat) : (word len count n).length = len n := length_bits _ _

include fits

theorem Fits.code_scaled (is : n ∈ used len count) : code len count n * 2 ^ (depth - len n) =
    ∑ m ∈ used len count with Before len m n, 2 ^ (depth - len m) := by
  unfold code
  rw [Finset.sum_mul]
  refine sum_congr rfl fun m member => ?_
  have before := (mem_filter.mp member).2
  have bound := fits.bounded n is
  unfold Before at before
  rw [← Nat.pow_add]
  exact congrArg (2 ^ ·) (by omega)

/-- The word of a symbol ends before those that come later begin. -/
theorem Fits.code_before (is : m ∈ used len count) (is' : n ∈ used len count) (before : Before len m n) :
    (code len count m + 1) * 2 ^ (len n - len m) ≤ code len count n := by
  have bound := fits.bounded n is'
  have scale : 2 ^ (depth - len m) = 2 ^ (len n - len m) * 2 ^ (depth - len n) := by
    unfold Before at before
    rw [← Nat.pow_add]
    exact congrArg (2 ^ ·) (by omega)
  have outside : m ∉ (used len count).filter fun k => Before len k m :=
    fun member => absurd (mem_filter.mp member).2 (by unfold Before; omega)
  have inside : insert m ((used len count).filter fun k => Before len k m) ⊆
      (used len count).filter fun k => Before len k n := by
    refine insert_subset (mem_filter.mpr ⟨is, before⟩) fun k member => ?_
    obtain ⟨isUsed, earlier⟩ := mem_filter.mp member
    refine mem_filter.mpr ⟨isUsed, ?_⟩
    unfold Before at *
    omega
  have sums := sum_le_sum_of_subset (f := fun k => 2 ^ (depth - len k)) inside
  rw [sum_insert outside, ← fits.code_scaled is, ← fits.code_scaled is', scale] at sums
  refine Nat.le_of_mul_le_mul_right ?_ (Nat.two_pow_pos (depth - len n))
  refine Nat.le_trans (Nat.le_of_eq ?_) sums
  ring

theorem Fits.code_lt (is : n ∈ used len count) : code len count n < 2 ^ len n := by
  have bound := fits.bounded n is
  have outside : n ∉ (used len count).filter fun k => Before len k n :=
    fun member => absurd (mem_filter.mp member).2 (by unfold Before; omega)
  have sums := sum_le_sum_of_subset (f := fun k => 2 ^ (depth - len k))
    (insert_subset is (filter_subset (fun k => Before len k n) (used len count)))
  rw [sum_insert outside, ← fits.code_scaled is] at sums
  have all := sums.trans fits.kraft
  have scale : 2 ^ depth = 2 ^ len n * 2 ^ (depth - len n) := by
    rw [← Nat.pow_add]
    exact congrArg (2 ^ ·) (by omega)
  refine Nat.lt_of_mul_lt_mul_right (a := 2 ^ (depth - len n)) ?_
  have positive := Nat.two_pow_pos (depth - len n)
  omega

/-- No word begins with another. -/
theorem Fits.eq_of_prefix (is : m ∈ used len count) (is' : n ∈ used len count)
    (starts : word len count m <+: word len count n) : m = n := by
  have length := starts.length_le
  rw [length_word, length_word] at length
  have quotient := eq_div_of_prefix starts (fits.code_lt is) (fits.code_lt is')
  by_contra other
  have positive := Nat.two_pow_pos (len n - len m)
  rcases Nat.lt_trichotomy m n with less | same | more
  · have gap := fits.code_before is is' (by unfold Before; omega)
    have bound := (Nat.le_div_iff_mul_le positive).mpr gap
    omega
  · exact other same
  · by_cases shorter : len m < len n
    · have gap := fits.code_before is is' (.inl shorter)
      have bound := (Nat.le_div_iff_mul_le positive).mpr gap
      omega
    · have gap := fits.code_before is' is (.inr ⟨by omega, more⟩)
      rw [show len m - len n = 0 by omega] at gap
      rw [show len n - len m = 0 by omega] at quotient
      simp only [Nat.pow_zero, Nat.div_one] at quotient gap
      omega

theorem Fits.free : Free (words len count) := by
  intro u member v member' starts
  obtain ⟨m, is, rfl⟩ := mem_image.mp member
  obtain ⟨n, is', rfl⟩ := mem_image.mp member'
  rw [fits.eq_of_prefix is is' starts]

theorem Fits.injOn : Set.InjOn (word len count) (used len count) :=
  fun _ is _ is' same => fits.eq_of_prefix is is' (same ▸ List.prefix_rfl)

/-- Without room for another word there is one stem less than there are words. -/
theorem Fits.card_stems (complete : ∑ n ∈ used len count, 2 ^ (depth - len n) = 2 ^ depth) :
    (used len count).card = (stems (words len count)).card + 1 := by
  have bounded : ∀ w ∈ words len count, w.length ≤ depth := by
    intro w member
    obtain ⟨n, is, rfl⟩ := mem_image.mp member
    rw [length_word]
    exact fits.bounded n is
  have whole : ∑ w ∈ words len count, 2 ^ (depth - w.length) = 2 ^ depth := by
    unfold words
    rw [sum_image fits.injOn]
    simpa using complete
  have counted := fits.free.card_stems bounded whole
  rwa [words, card_image_of_injOn fits.injOn] at counted

end Canonical

end MPStuBS.PrefixCode
