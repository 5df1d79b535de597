import Mathlib.Data.Nat.Digits.Defs
import Mathlib.Data.Nat.Digits.Lemmas

/-! Numbers as strings of digits in a base of at most 16. -/
namespace MPStuBS

def digitChar (d : Nat) : UInt8 := if d < 10 then UInt8.ofNat (48 + d) else UInt8.ofNat (87 + d)

/-- The digit that a character stands for. -/
def digitOf (c : UInt8) : Nat := if c.toNat < 58 then c.toNat - 48 else c.toNat - 87

/-- The number that a string stands for. -/
def readNumber (b : Nat) (s : List UInt8) : Nat := s.foldl (fun n c => digitOf c + b * n) 0

/-- The string has digits of the base only, none of them a leading zero, and stands for the number. -/
structure Numeral (b n : Nat) (s : List UInt8) : Prop where
  nonempty : s ≠ []
  digits : ∀ c ∈ s, ∃ d < b, c = digitChar d
  canonical : s.head? = some (digitChar 0) → s = [digitChar 0]
  value : readNumber b s = n

def numeral (b n : Nat) : List UInt8 :=
  if n = 0 then [digitChar 0] else ((Nat.digits b n).map digitChar).reverse

variable {b n d : Nat}

theorem digitOf_digitChar (small : d < 16) : digitOf (digitChar d) = d := by
  unfold digitOf digitChar
  split
  · rw [UInt8.toNat_ofNat', Nat.mod_eq_of_lt (by omega)]
    split <;> omega
  · rw [UInt8.toNat_ofNat', Nat.mod_eq_of_lt (by omega)]
    split <;> omega

theorem readNumber_reverse (small : b ≤ 16) : ∀ ds : List Nat, (∀ d ∈ ds, d < b) →
    readNumber b (ds.map digitChar).reverse = Nat.ofDigits b ds := by
  intro ds
  induction ds with
  | nil => exact fun _ => rfl
  | cons d ds ih =>
    intro inside
    have rest := ih fun e member => inside e (.tail _ member)
    rw [List.map_cons, List.reverse_cons]
    unfold readNumber at rest ⊢
    rw [List.foldl_append, rest, List.foldl_cons, List.foldl_nil, Nat.ofDigits_cons,
      digitOf_digitChar (Nat.lt_of_lt_of_le (inside d (.head _)) small)]

/-- A number has a numeral in each base. -/
theorem numeral_spec (more : 1 < b) (small : b ≤ 16) (n : Nat) : Numeral b n (numeral b n) := by
  unfold numeral
  by_cases zero : n = 0
  · rw [if_pos zero]
    refine ⟨List.cons_ne_nil _ _, fun c member => ⟨0, by omega, List.mem_singleton.mp member⟩, fun _ => rfl, ?_⟩
    rw [zero]
    rfl
  · rw [if_neg zero]
    have below : ∀ d ∈ Nat.digits b n, d < b := fun d member => Nat.digits_lt_base more member
    have some : Nat.digits b n ≠ [] := Nat.digits_ne_nil_iff_ne_zero.mpr zero
    refine ⟨by simpa using some, fun c member => ?_, fun first => ?_, ?_⟩
    · obtain ⟨d, inside, rfl⟩ := List.mem_map.mp (List.mem_reverse.mp member)
      exact ⟨d, below d inside, rfl⟩
    · rw [List.head?_reverse, List.getLast?_map, List.getLast?_eq_some_getLast some, Option.map_some] at first
      have last := congrArg digitOf (Option.some.inj first)
      have inside := below _ (List.getLast_mem some)
      rw [digitOf_digitChar (by omega), digitOf_digitChar (by omega)] at last
      exact absurd last (Nat.getLast_digit_ne_zero b zero)
    · rw [readNumber_reverse small _ below, Nat.ofDigits_digits]

theorem Numeral.eq_of_eq {n m : Nat} {s : List UInt8} (fst : Numeral b n s) (snd : Numeral b m s) : n = m :=
  fst.value.symm.trans snd.value

end MPStuBS
