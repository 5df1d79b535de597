import MPStuBS.Numerals
import MPStuBS.OutputStream

/-! What `operator <<` puts for numbers of every type in every base. -/
namespace MPStuBS.OutputStream

variable {σ : Type} {put : UInt8 → σ → Option σ}

section Puts

theorem puts_append (s s' : List UInt8) (device : σ) :
    puts put (s ++ s') device = (puts put s device).bind fun device => puts put s' device := by
  unfold puts
  rw [List.foldlM_append]
  rfl

/-- The stream puts the characters on its device. -/
def Prints (put : UInt8 → σ → Option σ) (print : OutputStream σ → Option (OutputStream σ)) (os : OutputStream σ)
    (s : List UInt8) : Prop :=
  print os = (puts put s os.device).map fun device => { os with device := device }

theorem Prints.seq {print print' : OutputStream σ → Option (OutputStream σ)} {os : OutputStream σ} {s s' : List UInt8}
    (fst : Prints put print os s) (snd : ∀ device, Prints put print' { os with device := device } s') :
    Prints put (fun os => (print os).bind print') os (s ++ s') := by
  have first : print os = _ := fst
  change (print os).bind print' = _
  rw [first, puts_append]
  cases puts put s os.device with
  | none => rfl
  | some device => exact snd device

theorem prints_none (os : OutputStream σ) : Prints put some os [] := rfl

theorem prints_char (c : UInt8) (os : OutputStream σ) : Prints put (char put c) os [c] := by
  unfold Prints char puts
  rw [List.foldlM_cons]
  cases put c os.device <;> rfl

theorem prints_string (s : List UInt8) : ∀ os : OutputStream σ, Prints put (string put s) os s := by
  induction s with
  | nil => exact fun os => rfl
  | cons c s ih =>
    intro os
    have char : Prints put (char put c) os [c] := prints_char c os
    have both := char.seq fun device => ih { os with device := device }
    unfold string
    exact both

theorem prints_putDigits (helper : Nat → UInt8) (i : Nat) : ∀ os : OutputStream σ,
    Prints put (putDigits put helper i) os ((List.range i).map fun k => helper (k + 1)).reverse := by
  induction i with
  | zero => exact fun os => rfl
  | succ i ih =>
    intro os
    rw [List.range_succ, List.map_append, List.reverse_append]
    have char : Prints put (char put (helper (i + 1))) os [helper (i + 1)] := prints_char _ os
    exact char.seq fun device => ih { os with device := device }

end Puts

section Helper

variable {b : Nat}

theorem hexChars_getElem (d : Nat) (small : d < 16) : hexChars[d]? = some (digitChar d) := by
  interval_cases d <;> decide

/-- The digits of the number are behind those that the array has already. -/
theorem digits_fills (more : 1 < b) (small : b ≤ 16) (room : Nat) : ∀ (ival : BitVec 64) (size : Nat)
    (helper : Nat → UInt8), ival.toNat < 2 ^ room → ∃ helper', digits (BitVec.ofNat 64 b) room ival size helper =
      some (size + (Nat.digits b ival.toNat).length, helper') ∧ (∀ i < size, helper' i = helper i) ∧
      ∀ k (inside : k < (Nat.digits b ival.toNat).length), helper' (size + k) = digitChar (Nat.digits b ival.toNat)[k] := by
  induction room with
  | zero =>
    intro ival size helper bound
    obtain rfl : ival = 0 := BitVec.eq_of_toNat_eq (by simpa using bound)
    exact ⟨helper, by simp [digits], fun _ _ => rfl, fun k inside => by simp at inside⟩
  | succ room ih =>
    intro ival size helper bound
    by_cases zero : ival = 0
    · subst zero
      exact ⟨helper, by simp [digits], fun _ _ => rfl, fun k inside => by simp at inside⟩
    · have base : (BitVec.ofNat 64 b).toNat = b := by
        rw [BitVec.toNat_ofNat, Nat.mod_eq_of_lt (by omega)]
      have positive : 0 < ival.toNat := by
        refine Nat.pos_of_ne_zero fun none => zero (BitVec.eq_of_toNat_eq ?_)
        rw [none]
        rfl
      have remainder := Nat.mod_lt ival.toNat (show 0 < b by omega)
      have quotient : (ival / BitVec.ofNat 64 b).toNat = ival.toNat / b := by
        rw [BitVec.toNat_udiv, base]
      have smaller : ival.toNat / b < 2 ^ room := by
        refine Nat.div_lt_of_lt_mul ?_
        have := Nat.mul_le_mul_right (2 ^ room) (show 2 ≤ b by omega)
        rw [Nat.pow_succ] at bound
        omega
      obtain ⟨helper', filled, before, behind⟩ := ih (ival / BitVec.ofNat 64 b) (size + 1)
        (fun i => if i = size then digitChar (ival.toNat % b) else helper i) (by rwa [quotient])
      rw [quotient] at filled behind
      rw [Nat.digits_def' more positive]
      refine ⟨helper', ?_, fun i inside => ?_, fun k inside => ?_⟩
      · rw [digits, if_neg zero, BitVec.toNat_umod, base, hexChars_getElem _ (by omega)]
        simp only [Option.bind_eq_bind, Option.bind_some]
        rw [filled, List.length_cons, Nat.add_assoc, Nat.add_comm 1]
      · rw [before i (by omega), if_neg (by omega)]
      · cases k with
        | zero => rw [Nat.add_zero, before size (by omega), if_pos rfl, List.getElem_cons_zero]
        | succ k =>
          rw [List.length_cons] at inside
          rw [show size + (k + 1) = size + 1 + k by omega, behind k (by omega), List.getElem_cons_succ]

/-- What stands before the digits. -/
def basePrefix (b : Nat) : List UInt8 :=
  if b = 2 then ['0', 'b'].map Char.toUInt8
  else if b = 8 then ['0'].map Char.toUInt8
  else if b = 16 then ['0', 'x'].map Char.toUInt8
  else []

def signPrefix (b : Nat) (sign nonzero : Bool) : List UInt8 :=
  if b = 10 ∧ sign = true ∧ nonzero = true then ['-'.toUInt8] else []

theorem prints_putPrefix (ival : BitVec 64) (sign : Bool) (os : OutputStream σ) (known : os.base ∈ [2, 8, 10, 16]) :
    Prints put (putPrefix put ival sign) os (basePrefix os.base ++ signPrefix os.base sign (ival ≠ 0)) := by
  obtain ⟨base, device⟩ := os
  simp only [List.mem_cons, List.not_mem_nil, or_false] at known
  rcases known with rfl | rfl | rfl | rfl
  · exact prints_string _ _
  · exact prints_string _ _
  · unfold Prints putPrefix signPrefix
    by_cases signed : sign = true ∧ ival ≠ 0
    · simp only [true_and, decide_eq_true_eq, if_pos signed]
      exact prints_char _ _
    · simp only [true_and, decide_eq_true_eq, if_neg signed]
      exact prints_none _
  · exact prints_string _ _

/-- The digits are put from the last of the array to the first. -/
theorem prints_putValue (ival : BitVec 64) (os : OutputStream σ) (more : 1 < os.base) (small : os.base ≤ 16) :
    Prints put (putValue put ival) os (numeral os.base ival.toNat) := by
  unfold Prints putValue numeral
  by_cases zero : ival = 0
  · rw [if_pos zero, if_pos (by rw [zero]; rfl)]
    exact prints_char _ _
  · have positive : ival.toNat ≠ 0 := fun none => zero (BitVec.eq_of_toNat_eq none)
    rw [if_neg zero, if_neg positive]
    obtain ⟨helper', filled, -, behind⟩ := digits_fills more small 64 ival 0 (fun _ => 0) ival.isLt
    rw [Nat.zero_add] at filled
    simp only [filled, Option.bind_eq_bind, Option.bind_some]
    have some : 0 < (Nat.digits os.base ival.toNat).length :=
      List.length_pos_iff.mpr (Nat.digits_ne_nil_iff_ne_zero.mpr positive)
    have listed : ((Nat.digits os.base ival.toNat).map digitChar).reverse =
        ((List.range ((Nat.digits os.base ival.toNat).length - 1)).map fun k => helper' (k + 1)).reverse ++ [helper' 0] := by
      rw [← List.reverse_cons]
      refine congrArg List.reverse (List.ext_getElem (by simp; omega) fun k inside _ => ?_)
      rw [List.length_map] at inside
      have here := behind k inside
      rw [Nat.zero_add] at here
      rw [List.getElem_map, ← here]
      cases k with
      | zero => rfl
      | succ k => simp
    rw [listed]
    exact (prints_putDigits helper' _ _).seq fun device => prints_char _ _

variable (put) in
theorem prints_helper (ival : BitVec 64) (sign : Bool) (os : OutputStream σ) (known : os.base ∈ [2, 8, 10, 16]) :
    Prints put (helper put ival sign) os
      (basePrefix os.base ++ signPrefix os.base sign (ival ≠ 0) ++ numeral os.base ival.toNat) := by
  have base : 1 < os.base ∧ os.base ≤ 16 := by
    simp only [List.mem_cons, List.not_mem_nil, or_false] at known
    omega
  exact (prints_putPrefix ival sign os known).seq fun device => prints_putValue ival _ base.1 base.2

end Helper

section Types

/-- The bases that the manipulators choose. -/
inductive Base where
  | bin
  | oct
  | dec
  | hex
  deriving DecidableEq, Repr

def Base.value : Base → Nat
  | .bin => 2
  | .oct => 8
  | .dec => 10
  | .hex => 16

theorem Base.known (base : Base) : base.value ∈ [2, 8, 10, 16] := by
  cases base <;> decide

theorem Base.numeral_spec (base : Base) (n : Nat) : Numeral base.value n (numeral base.value n) :=
  MPStuBS.numeral_spec (by cases base <;> decide) (by cases base <;> decide) n

/-- The types of unsigned numbers. -/
inductive UnsignedType where
  | short
  | int
  | long
  | longLong
  deriving DecidableEq, Repr

def UnsignedType.bits : UnsignedType → Nat
  | .short => 16
  | .int => 32
  | .long => 64
  | .longLong => 64

/-- `operator <<` for a number of the type. -/
def UnsignedType.print (put : UInt8 → σ → Option σ) :
    (type : UnsignedType) → BitVec type.bits → OutputStream σ → Option (OutputStream σ)
  | .short, ival => unsignedShort put ival
  | .int, ival => unsignedInt put ival
  | .long, ival => unsignedLong put ival
  | .longLong, ival => unsignedLongLong put ival

/-- The types of signed numbers. -/
inductive SignedType where
  | short
  | int
  | long
  | longLong
  deriving DecidableEq, Repr

def SignedType.bits : SignedType → Nat
  | .short => 16
  | .int => 32
  | .long => 64
  | .longLong => 64

def SignedType.print (put : UInt8 → σ → Option σ) :
    (type : SignedType) → BitVec type.bits → OutputStream σ → Option (OutputStream σ)
  | .short, ival => OutputStream.short put ival
  | .int, ival => OutputStream.int put ival
  | .long, ival => OutputStream.long put ival
  | .longLong, ival => OutputStream.longLong put ival

theorem UnsignedType.print_eq (type : UnsignedType) (ival : BitVec type.bits) :
    type.print put ival = unsignedLongLong put (ival.setWidth 64) := by
  cases type with
  | short => rfl
  | int => rfl
  | long => exact congrArg _ (BitVec.setWidth_eq ival).symm
  | longLong => exact congrArg _ (BitVec.setWidth_eq ival).symm

theorem SignedType.print_eq (type : SignedType) (ival : BitVec type.bits) :
    type.print put ival = OutputStream.longLong put (ival.signExtend 64) := by
  cases type with
  | short => rfl
  | int => rfl
  | long => exact congrArg _ (BitVec.signExtend_eq ival).symm
  | longLong => exact congrArg _ (BitVec.signExtend_eq ival).symm

variable (put) in
/-- A signed number is put with its magnitude, whatever the base. -/
theorem prints_longLong (ival : BitVec 64) (os : OutputStream σ) (known : os.base ∈ [2, 8, 10, 16]) :
    Prints put (longLong put ival) os (basePrefix os.base ++ signPrefix os.base true (ival.toInt < 0) ++
      numeral os.base ival.toInt.natAbs) := by
  have value := BitVec.toInt_eq_toNat_cond ival
  have bound := ival.isLt
  unfold longLong
  split
  · rename_i least
    subst least
    exact prints_helper _ _ _ os known
  · rename_i other
    split
    · rename_i negative
      rw [BitVec.slt, decide_eq_true_eq] at negative
      have below : ival.toInt < 0 := negative
      have magnitude : (ival * -1).toNat = ival.toInt.natAbs := by
        rw [BitVec.mul_neg, show ival * 1 = ival from BitVec.mul_one ival, BitVec.toNat_neg]
        split at value <;> omega
      have nonzero : ival * -1 ≠ 0 := by
        intro zero
        rw [zero] at magnitude
        have none : (0 : BitVec 64).toNat = 0 := rfl
        omega
      have printed := prints_helper put (ival * -1) true os known
      rw [magnitude] at printed
      rw [decide_eq_true nonzero] at printed
      rw [decide_eq_true below]
      exact printed
    · rename_i negative
      rw [BitVec.slt, decide_eq_true_eq, Int.not_lt] at negative
      have above : ¬ ival.toInt < 0 := Int.not_lt.mpr negative
      have magnitude : ival.toNat = ival.toInt.natAbs := by
        split at value <;> omega
      have printed := prints_helper put ival false os known
      rw [magnitude] at printed
      simpa [signPrefix, above] using printed

theorem UnsignedType.prints (type : UnsignedType) (ival : BitVec type.bits) (base : Base) (device : σ) :
    Prints put (type.print put ival) ⟨base.value, device⟩ (basePrefix base.value ++ numeral base.value ival.toNat) := by
  have narrow : type.bits ≤ 64 := by cases type <;> decide
  have printed := prints_helper put (ival.setWidth 64) false ⟨base.value, device⟩ base.known
  rw [BitVec.toNat_setWidth_of_le narrow] at printed
  rw [type.print_eq]
  change Prints put (helper put (ival.setWidth 64) false) _ _
  simpa [signPrefix] using printed

theorem SignedType.prints (type : SignedType) (ival : BitVec type.bits) (base : Base) (device : σ) :
    Prints put (type.print put ival) ⟨base.value, device⟩ (basePrefix base.value ++
      signPrefix base.value true (ival.toInt < 0) ++ numeral base.value ival.toInt.natAbs) := by
  have narrow : type.bits ≤ 64 := by cases type <;> decide
  have printed := prints_longLong put (ival.signExtend 64) ⟨base.value, device⟩ base.known
  rw [BitVec.toInt_signExtend_of_le narrow] at printed
  rw [type.print_eq]
  exact printed

/-- Every number is put as the prefix of its base and its numeral there, in base 10 with the sign
before it. The array of the digits has room for them all. -/
theorem numbers_print (put : UInt8 → σ → Option σ) (device : σ) :
    (∀ (type : UnsignedType) (ival : BitVec type.bits) (base : Base), ∃ s, Numeral base.value ival.toNat s ∧
      type.print put ival ⟨base.value, device⟩ =
        (puts put (basePrefix base.value ++ s) device).map fun device => ⟨base.value, device⟩) ∧
    ∀ (type : SignedType) (ival : BitVec type.bits), ∃ s, Numeral 10 ival.toInt.natAbs s ∧
      type.print put ival ⟨10, device⟩ =
        (puts put ((if ival.toInt < 0 then ['-'.toUInt8] else []) ++ s) device).map fun device => ⟨10, device⟩ := by
  refine ⟨fun type ival base => ⟨_, base.numeral_spec _, type.prints ival base device⟩, fun type ival => ?_⟩
  refine ⟨_, Base.numeral_spec .dec _, (type.prints ival .dec device).trans ?_⟩
  by_cases negative : ival.toInt < 0 <;> simp [negative, basePrefix, signPrefix, Base.value]

end Types

end MPStuBS.OutputStream
