import MPStuBS.HuffmanTree

/-! The bits of a stream, and what is read where some of them are known. -/
namespace MPStuBS.PNG

open PrefixCode

variable {bitstream : List UInt8} {bp : Nat} {b : Bool} {w w' : List Bool}

@[simp] theorem ok_bind {α β : Type} (a : α) (f : α → Png β) : (Except.ok a >>= f) = f a := rfl

@[simp] theorem pure_bind' {α β : Type} (a : α) (f : α → Png β) : ((pure a : Png α) >>= f) = f a := rfl

theorem byte_ext {a b : UInt8} (bits : ∀ i < 8, a.toNat.testBit i = b.toNat.testBit i) : a = b := by
  refine UInt8.toNat_inj.mp (Nat.eq_of_testBit_eq fun i => ?_)
  by_cases inside : i < 8
  · exact bits i inside
  · have large : 2 ^ 8 ≤ 2 ^ i := Nat.pow_le_pow_right (by decide) (Nat.not_lt.mp inside)
    rw [Nat.testBit_lt_two_pow (Nat.lt_of_lt_of_le a.toNat_lt large), Nat.testBit_lt_two_pow (Nat.lt_of_lt_of_le b.toNat_lt large)]

/-- These bits come next. -/
def Ahead (bitstream : List UInt8) (bp : Nat) (w : List Bool) : Prop := w <+: (bitsOf bitstream).drop bp

theorem Ahead.left (ahead : Ahead bitstream bp (w ++ w')) : Ahead bitstream bp w := (List.prefix_append w w').trans ahead

theorem Ahead.right (ahead : Ahead bitstream bp (w ++ w')) : Ahead bitstream (bp + w.length) w' := by
  obtain ⟨rest, whole⟩ := ahead
  refine ⟨rest, ?_⟩
  rw [← List.drop_drop, ← whole, List.append_assoc, List.drop_left]

theorem Ahead.inside (ahead : Ahead bitstream bp w) (some : w ≠ []) : bp + w.length ≤ 8 * bitstream.length := by
  have length := ahead.length_le
  have positive := List.length_pos_of_ne_nil some
  rw [List.length_drop, length_bitsOf] at length
  omega

theorem Ahead.readBit (ahead : Ahead bitstream bp (b :: w)) : PNG.readBit bitstream bp = .ok (b.toNat, bp + 1) := by
  have here : (bitsOf bitstream)[bp]? = some b := by
    obtain ⟨rest, whole⟩ := ahead
    have first := congrArg List.head? whole
    rw [List.head?_drop] at first
    exact first.symm
  rw [getElem?_bitsOf] at here
  obtain ⟨byte, found, rfl⟩ := Option.map_eq_some_iff.mp here
  unfold PNG.readBit load
  rw [found]
  refine congrArg (fun bit => (Except.ok (bit, bp + 1) : Png _)) ?_
  rw [Nat.and_one_is_mod, Nat.testBit_eq_decide_div_mod_eq, Nat.shiftRight_eq_div_pow]
  rcases Nat.mod_two_eq_zero_or_one (byte.toNat / 2 ^ (bp % 8)) with zero | one
  · simp [zero]
  · simp [one]

theorem Ahead.tail (ahead : Ahead bitstream bp (b :: w)) : Ahead bitstream (bp + 1) w := Ahead.right (w := [b]) ahead

theorem readBitsFrom_reads (n : Nat) {v : Nat} : ∀ {k bp}, Ahead bitstream bp ((low (k + n) v).drop k) →
    readBitsFrom bitstream n k (v % 2 ^ k) bp = .ok (v % 2 ^ (k + n), bp + n) := by
  induction n with
  | zero => exact fun _ => rfl
  | succ n ih =>
    intro k bp ahead
    have next : (low (k + (n + 1)) v).drop k = v.testBit k :: (low (k + 1 + n) v).drop (k + 1) := by
      have inside : k < (low (k + (n + 1)) v).length := by simp
      rw [List.drop_eq_getElem_cons inside, Nat.add_assoc k 1 n, Nat.add_comm 1 n]
      simp [low]
    rw [next] at ahead
    unfold readBitsFrom
    rw [ahead.readBit, ok_bind]
    have gathered : v % 2 ^ k ||| (v.testBit k).toNat <<< k = v % 2 ^ (k + 1) := by
      have bit : v / 2 ^ k % 2 = (v.testBit k).toNat := by
        rw [Nat.testBit_eq_decide_div_mod_eq]
        rcases Nat.mod_two_eq_zero_or_one (v / 2 ^ k) with zero | one
        · simp [zero]
        · simp [one]
      rw [Nat.mod_pow_succ, bit, Nat.shiftLeft_eq, Nat.mul_comm, Nat.or_comm,
        ← Nat.two_pow_add_eq_or_of_lt (Nat.mod_lt v (Nat.two_pow_pos k)), Nat.add_comm]
    dsimp only
    rw [gathered, ih ahead.tail]
    simp only [Nat.add_assoc, Nat.add_comm 1 n]

/-- A number is read whose bits come next. -/
theorem Ahead.readBits {n v : Nat} (ahead : Ahead bitstream bp (low n v)) (small : v < 2 ^ n) :
    PNG.readBits bitstream bp n = .ok (v, bp + n) := by
  have reads : readBitsFrom bitstream n 0 (v % 2 ^ 0) bp = .ok (v % 2 ^ (0 + n), bp + n) :=
    readBitsFrom_reads n (by simpa using ahead)
  rw [Nat.pow_zero, Nat.mod_one, Nat.zero_add, Nat.mod_eq_of_lt small] at reads
  exact reads

end MPStuBS.PNG
