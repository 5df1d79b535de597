import MPStuBS.DriveSelection

/-! Which sectors a call of the driver works on. The block number is multiplied in 64 bits
before it is checked, and cut to 28 bits after. -/
namespace MPStuBS.Harddisk

section Conversion

variable (d : Harddisk) (b : BitVec 64) (s : BitVec 8)

def factor : Nat := d.blocksize.toNat / 512

/-- If `convert_lba` succeeds, its results denote the sectors of the blocks. They are on the
drive and can be addressed with 28 bits. -/
def ConvertsExactly : Prop :=
  match d.convertLba b s with
  | .error _ => True
  | .ok (lba, sectors) => lba.toNat = b.toNat * d.factor ∧ sectors.toNat = s.toNat * d.factor ∧
      b.toNat * d.factor + s.toNat * d.factor ≤ d.maxLba.toNat ∧ b.toNat * d.factor + s.toNat * d.factor ≤ 2 ^ 28

/-- The checks of `convert_lba`, which see the block's address modulo 2⁶⁴. -/
def Accepts : Prop :=
  s.toNat * d.factor ≤ 255 ∧ b.toNat * d.factor % 2 ^ 64 + s.toNat * d.factor ≤ d.maxLba.toNat

instance : Decidable (d.Accepts b s) := inferInstanceAs (Decidable (_ ∧ _))

theorem factor_lt : d.factor < 2 ^ 23 := by
  have bound := d.blocksize.isLt
  unfold factor
  omega

theorem toNat_factor : (d.blocksize / 512).toNat = d.factor := by
  rw [BitVec.toNat_udiv]
  rfl

theorem toNat_sectors : (s.setWidth 32 * (d.blocksize / 512)).toNat = s.toNat * d.factor := by
  have few := s.isLt
  have bound : s.toNat * d.factor < 2 ^ 8 * 2 ^ 23 := Nat.mul_lt_mul'' few d.factor_lt
  rw [BitVec.toNat_mul, toNat_factor, BitVec.toNat_setWidth, Nat.mod_eq_of_lt (by omega : s.toNat < 2 ^ 32),
    Nat.mod_eq_of_lt (Nat.lt_trans bound (by decide))]

theorem toNat_lba : (b * (d.blocksize / 512).setWidth 64).toNat = b.toNat * d.factor % 2 ^ 64 := by
  have bound := d.factor_lt
  rw [BitVec.toNat_mul, BitVec.toNat_setWidth, toNat_factor, Nat.mod_eq_of_lt (by omega : d.factor < 2 ^ 64)]

/-- `convert_lba` in natural numbers. -/
theorem convertLba_eq : d.convertLba b s =
    if d.Accepts b s then
      .ok (BitVec.ofNat 64 (b.toNat * d.factor % 2 ^ 28), BitVec.ofNat 8 (s.toNat * d.factor))
    else .error .einval := by
  have top := d.maxLba.isLt
  have max : (d.maxLba.setWidth 64).toNat = d.maxLba.toNat := by
    rw [BitVec.toNat_setWidth, Nat.mod_eq_of_lt (by omega)]
  unfold convertLba
  have many : (255 : BitVec 32) < s.setWidth 32 * (d.blocksize / 512) ↔ 255 < s.toNat * d.factor := by
    rw [BitVec.lt_def, toNat_sectors]
    rfl
  simp only [many]
  by_cases tooMany : 255 < s.toNat * d.factor
  · rw [if_pos tooMany, if_neg fun accepts => absurd accepts.1 (Nat.not_le.mpr tooMany)]
  · have count : ((s.setWidth 32 * (d.blocksize / 512)).setWidth 8 : BitVec 8) = BitVec.ofNat 8 (s.toNat * d.factor) := by
      apply BitVec.eq_of_toNat_eq
      rw [BitVec.toNat_setWidth, toNat_sectors, BitVec.toNat_ofNat]
    have wide : (BitVec.setWidth 64 (BitVec.ofNat 8 (s.toNat * d.factor))).toNat = s.toNat * d.factor := by
      rw [BitVec.toNat_setWidth, BitVec.toNat_ofNat]
      omega
    have beyond : (d.maxLba.setWidth 64 < b * (d.blocksize / 512).setWidth 64 ∨ d.maxLba.setWidth 64 <
        b * (d.blocksize / 512).setWidth 64 + BitVec.setWidth 64 (BitVec.ofNat 8 (s.toNat * d.factor))) ↔
        d.maxLba.toNat < b.toNat * d.factor % 2 ^ 64 + s.toNat * d.factor := by
      rw [BitVec.lt_def, BitVec.lt_def, BitVec.toNat_add, max, toNat_lba, wide]
      omega
    have cut : b * (d.blocksize / 512).setWidth 64 &&& 0xfffffff = BitVec.ofNat 64 (b.toNat * d.factor % 2 ^ 28) := by
      apply BitVec.eq_of_toNat_eq
      have mask : (0xfffffff : BitVec 64).toNat = 2 ^ 28 - 1 := by decide
      rw [BitVec.toNat_and, toNat_lba, mask, Nat.and_two_pow_sub_one_eq_mod, BitVec.toNat_ofNat]
      omega
    rw [if_neg tooMany, count]
    simp only [beyond, cut]
    by_cases far : d.maxLba.toNat < b.toNat * d.factor % 2 ^ 64 + s.toNat * d.factor
    · rw [if_pos far, if_neg fun accepts => absurd accepts.2 (Nat.not_le.mpr far)]
    · rw [if_neg far, if_pos ⟨Nat.not_lt.mp tooMany, Nat.not_lt.mp far⟩]

variable {d b s} in
theorem convertLba_lt {lba : BitVec 64} {sectors : BitVec 8} (converted : d.convertLba b s = .ok (lba, sectors)) :
    lba.toNat < 2 ^ 28 := by
  rw [convertLba_eq] at converted
  split at converted
  · cases converted
    rw [BitVec.toNat_ofNat]
    omega
  · cases converted

theorem convertsExactly_iff : d.ConvertsExactly b s ↔
    ¬ d.Accepts b s ∨ b.toNat * d.factor < 2 ^ 28 ∧ b.toNat * d.factor + s.toNat * d.factor ≤ 2 ^ 28 := by
  unfold ConvertsExactly
  rw [convertLba_eq]
  by_cases accepts : d.Accepts b s
  · rw [if_pos accepts, not_not_intro accepts |> or_iff_right]
    obtain ⟨few, inside⟩ := accepts
    simp only [BitVec.toNat_ofNat]
    omega
  · rw [if_neg accepts]
    exact iff_of_true trivial (.inl accepts)

end Conversion

section Registers

variable {d d' : Harddisk} {lba : BitVec 64} {sectors command : BitVec 8} {p p' : IOPorts} {e : Issued}

theorem address_issue (right : Right (issue d lba sectors command p)) (low : lba.toNat < 2 ^ 28) :
    (issue d lba sectors command p).address = lba.toNat := by
  obtain ⟨-, nibble⟩ := right
  have mask : (0xF : BitVec 64).toNat = 2 ^ 4 - 1 := by decide
  have top : (((lba >>> 24) &&& 0xF).setWidth 8).toNat = lba.toNat / 2 ^ 24 % 2 ^ 4 % 2 ^ 8 := by
    rw [BitVec.toNat_setWidth, BitVec.toNat_and, mask, Nat.and_two_pow_sub_one_eq_mod, BitVec.toNat_ushiftRight,
      Nat.shiftRight_eq_div_pow]
  unfold Issued.address
  rw [nibble]
  simp only [issue, top, BitVec.toNat_setWidth, BitVec.toNat_ushiftRight, Nat.shiftRight_eq_div_pow]
  omega

/-- A command that goes to the right drive is about the sectors of the blocks, if the conversion is exact. -/
theorem Performs.touches (performs : Performs d lba sectors command d' p p') (exact : d.ConvertsExactly lba sectors)
    (issued : p'.issued = p.issued ++ [e]) (right : Right e) :
    e.address = lba.toNat * d.factor ∧ e.sectorCount.toNat = sectors.toNat * d.factor := by
  unfold Performs at performs
  unfold ConvertsExactly at exact
  cases converted : d.convertLba lba sectors with
  | error _ =>
    rw [converted] at performs
    rw [performs.2] at issued
    exact absurd (congrArg List.length issued) (by simp)
  | ok both =>
    obtain ⟨lbaStart, sectors512Byte⟩ := both
    rw [converted] at performs exact
    obtain ⟨-, commands⟩ := performs
    obtain rfl : issue d lbaStart sectors512Byte command p = e :=
      List.singleton_injective (List.append_cancel_left (commands.issued.symm.trans issued))
    exact ⟨(address_issue right (convertLba_lt converted)).trans exact.1, exact.2.1⟩

end Registers

/-- The conversion is exact unless the block's address is cut, by the 64 bits of the multiplication or
the 28 bits of an address, and still passes the checks. Where it is exact, a read or a write that reaches its
drive gives it the sectors of the requested blocks. -/
theorem conversion_exact_iff (d : Harddisk) (b : BitVec 64) (s : BitVec 8) :
    (d.ConvertsExactly b s ↔
      ¬ d.Accepts b s ∨ b.toNat * d.factor < 2 ^ 28 ∧ b.toNat * d.factor + s.toNat * d.factor ≤ 2 ^ 28) ∧
    (∀ fuel d' result p p' e, d.readSectors fuel b s p = some ((d', result), p') → d.ConvertsExactly b s →
      p'.issued = p.issued ++ [e] → Right e →
      e.address = b.toNat * d.factor ∧ e.sectorCount.toNat = s.toNat * d.factor) ∧
    ∀ fuel src d' result p p' e, d.writeSectors fuel b s src p = some ((d', result), p') → d.ConvertsExactly b s →
      p'.issued = p.issued ++ [e] → Right e →
      e.address = b.toNat * d.factor ∧ e.sectorCount.toNat = s.toNat * d.factor := by
  refine ⟨d.convertsExactly_iff b s, ?_, ?_⟩
  · intro fuel d' result p p' e ran exact issued right
    exact (readSectors_performs ran).touches exact issued right
  · intro fuel src d' result p p' e ran exact issued right
    exact (writeSectors_performs ran).touches exact issued right

def disk1000 : Harddisk := ⟨1024, true, 1000, .primaryBusMaster, 0⟩

/-- Block 2⁶³ of 1024 bytes becomes sector 0. -/
theorem convertLba_wraps : disk1000.convertLba 0x8000000000000000 1 = .ok (0, 2) ∧
    ¬ disk1000.ConvertsExactly 0x8000000000000000 1 := by
  refine ⟨by decide, ?_⟩
  rw [convertsExactly_iff]
  decide

end MPStuBS.Harddisk
