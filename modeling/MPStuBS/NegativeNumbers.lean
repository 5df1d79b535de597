import MPStuBS.NumberFormat

/-! Negative numbers in the bases of machine words. The stream puts their magnitude without the
sign, which is the word only for the least number of a type. -/
namespace MPStuBS.OutputStream

/-- A device that keeps what was put. -/
def record (c : UInt8) (s : List UInt8) : Option (List UInt8) := some (s ++ [c])

theorem puts_record (s : List UInt8) : ∀ s', puts record s s' = some (s' ++ s) := by
  induction s with
  | nil => exact fun s' => by rw [List.append_nil]; rfl
  | cons c s ih =>
    intro s'
    have rest := ih (s' ++ [c])
    rw [List.append_assoc] at rest
    exact rest

/-- The characters that are put for a number. -/
def SignedType.text (type : SignedType) (base : Base) (ival : BitVec type.bits) : Option (List UInt8) :=
  (type.print record ival ⟨base.value, []⟩).map device

variable {type : SignedType} {base : Base} {ival : BitVec type.bits}

theorem SignedType.text_eq (type : SignedType) (base : Base) (ival : BitVec type.bits) : type.text base ival =
    some (basePrefix base.value ++ signPrefix base.value true (ival.toInt < 0) ++
      numeral base.value ival.toInt.natAbs) := by
  have printed : type.print record ival ⟨base.value, []⟩ = _ := type.prints ival base []
  unfold SignedType.text
  rw [printed, puts_record]
  rfl

theorem SignedType.text_word (other : base ≠ .dec) (ival : BitVec type.bits) :
    type.text base ival = some (basePrefix base.value ++ numeral base.value ival.toInt.natAbs) := by
  rw [type.text_eq]
  have noSign : base.value ≠ 10 := by cases base <;> first | decide | exact absurd rfl other
  simp [signPrefix, noSign]

/-- A negative number of the type is put as the stored word, as no other number is. -/
structure PrintsWord (type : SignedType) (base : Base) (ival : BitVec type.bits) : Prop where
  word : ∃ s, Numeral base.value ival.toNat s ∧ type.text base ival = some (basePrefix base.value ++ s)
  sign : ∀ other, (∃ s, type.text other ival = some ('-'.toUInt8 :: s)) ↔ other = .dec
  unique : ∀ other, type.text base other = type.text base ival → other = ival

/-- The magnitude is the word exactly for the least number. -/
theorem natAbs_eq_toNat_iff (negative : ival.toInt < 0) :
    ival.toInt.natAbs = ival.toNat ↔ ival = BitVec.intMin type.bits := by
  have value := BitVec.toInt_eq_toNat_cond ival
  have bound := ival.isLt
  have least := BitVec.toNat_intMin (w := type.bits)
  rw [← BitVec.toNat_inj, least]
  have half : 2 ^ (type.bits - 1) % 2 ^ type.bits = 2 ^ (type.bits - 1) ∧ 2 * 2 ^ (type.bits - 1) = 2 ^ type.bits := by
    cases type <;> decide
  rw [half.1]
  split at value <;> omega

theorem natAbs_injective {other : BitVec type.bits} (least : ival = BitVec.intMin type.bits)
    (same : other.toInt.natAbs = ival.toInt.natAbs) : other = ival := by
  have value := BitVec.toInt_eq_toNat_cond other
  have bound := other.isLt
  have half : (BitVec.intMin type.bits).toInt.natAbs = 2 ^ (type.bits - 1) ∧ (BitVec.intMin type.bits).toNat =
      2 ^ (type.bits - 1) ∧ 2 * 2 ^ (type.bits - 1) = 2 ^ type.bits := by
    cases type <;> decide
  rw [least, half.1] at same
  rw [least, ← BitVec.toNat_inj, half.2.1]
  split at value <;> omega

theorem head_basePrefix (other : base ≠ .dec) : ∃ rest, basePrefix base.value = '0'.toUInt8 :: rest := by
  cases base <;> first | exact ⟨_, rfl⟩ | exact absurd rfl other

theorem signed_iff (negative : ival.toInt < 0) (base : Base) :
    (∃ s, type.text base ival = some ('-'.toUInt8 :: s)) ↔ base = .dec := by
  refine ⟨fun ⟨s, text⟩ => ?_, ?_⟩
  · by_contra other
    obtain ⟨rest, start⟩ := head_basePrefix other
    rw [SignedType.text_word other, start, Option.some.injEq, List.cons_append, List.cons.injEq] at text
    exact absurd text.1 (by decide)
  · rintro rfl
    rw [type.text_eq]
    exact ⟨numeral 10 ival.toInt.natAbs, by simp [basePrefix, signPrefix, Base.value, negative]⟩

/-- In the bases other than 10 a negative number is put as it is stored exactly if it is the least
number of its type. -/
theorem printsWord_iff (type : SignedType) (base : Base) (other : base ≠ .dec) (ival : BitVec type.bits)
    (negative : ival.toInt < 0) : PrintsWord type base ival ↔ ival = BitVec.intMin type.bits := by
  rw [← natAbs_eq_toNat_iff negative]
  refine ⟨fun ⟨⟨s, numeral, text⟩, _, _⟩ => ?_, fun same => ⟨⟨_, base.numeral_spec _, ?_⟩, signed_iff negative, ?_⟩⟩
  · rw [SignedType.text_word other, Option.some.injEq, List.append_cancel_left_eq] at text
    rw [← text] at numeral
    exact (base.numeral_spec _).eq_of_eq numeral
  · rw [SignedType.text_word other, same]
  · intro ival' text
    rw [SignedType.text_word other, SignedType.text_word other, Option.some.injEq, List.append_cancel_left_eq] at text
    have numeral := base.numeral_spec ival.toInt.natAbs
    rw [← text] at numeral
    exact natAbs_injective ((natAbs_eq_toNat_iff negative).mp same) ((base.numeral_spec _).eq_of_eq numeral)

theorem printsWord_int : PrintsWord .int .hex (BitVec.intMin 32) :=
  (printsWord_iff .int .hex (by decide) (BitVec.intMin 32) (by decide)).mpr rfl

/-- The number -1 is put like 1. -/
theorem minus_one_like_one : SignedType.text .int .hex (-1) = SignedType.text .int .hex 1 ∧
    ¬ PrintsWord .int .hex (-1) := by
  have same : SignedType.text .int .hex (-1) = SignedType.text .int .hex 1 := by decide
  exact ⟨same, fun word => absurd (word.unique 1 same.symm) (by decide)⟩

end MPStuBS.OutputStream
