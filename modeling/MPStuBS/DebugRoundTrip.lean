import MPStuBS.DebugState

/-! What a debugger writes into a register is there when the registers are saved again, but for the
control and status words of the floating-point unit, which are copied in the wrong direction. -/
namespace MPStuBS.DebugState

open RegisterNumber

/-- The number of bits that the hardware has for a register. -/
def RegisterNumber.bits : RegisterNumber → Nat
  | cs | ss | fs | gs | fctrl | fstat | fop => 16
  | ftag => 8
  | eflags | ds | es | fiseg | fioff | foseg | fooff | mxcsr => 32
  | st0 | st1 | st2 | st3 | st4 | st5 | st6 | st7 => 80
  | xmm0 | xmm1 | xmm2 | xmm3 | xmm4 | xmm5 | xmm6 | xmm7
  | xmm8 | xmm9 | xmm10 | xmm11 | xmm12 | xmm13 | xmm14 | xmm15 => 128
  | _ => 64

/-- The control and status words of the floating-point unit. -/
def RegisterNumber.IsStatus (r : RegisterNumber) : Prop := r ∈ [fctrl, fstat, ftag, fiseg, fioff, foseg, fooff, fop]

instance (r : RegisterNumber) : Decidable r.IsStatus := inferInstanceAs (Decidable (r ∈ _))

/-- The word that the unit itself has. -/
def statusWord (fpu : FPU.State) : RegisterNumber → Nat
  | fctrl => fpu.fcw.toNat
  | fstat => fpu.fsw.toNat
  | ftag => fpu.ftw.toNat
  | fiseg => fpu.ip_seg.toNat
  | fioff => fpu.ip_off.toNat
  | foseg => fpu.dp_seg.toNat
  | fooff => fpu.dp_off.toNat
  | fop => fpu.fop.toNat
  | _ => 0

section Places

def Place.width : Place → Nat
  | .general _ => 64
  | .segment _ | .fpuStatus _ | .xmmStatus _ => 32
  | .fpuData _ => 80
  | .xmmData _ => 128

variable {s : Registers} {v : Nat}

theorem load_store_same (p : Place) : (s.store v p).load p = v % 2 ^ p.width := by
  cases p <;> simp [Registers.store, Registers.load, assign, Place.width]

theorem load_store_other {p q : Place} (other : q ≠ p) : (s.store v p).load q = s.load q := by
  cases p <;> cases q <;> first
    | rfl
    | exact congrArg BitVec.toNat (if_neg fun same => other (congrArg _ same))

/-- The number of the register whose entry it is. -/
def Place.number : Place → Nat
  | .general i => i + offsetGeneral
  | .segment i => i + offsetSegment
  | .fpuData i => i + offsetFpuData
  | .fpuStatus i => i + offsetFpuStatus
  | .xmmData i => i + offsetXmmData
  | .xmmStatus i => i + offsetXmmStatus

theorem number_entry (n : Nat) : (entry n).number = n := by
  have back : ∀ {offset}, offset ≤ n → n - offset + offset = n := Nat.sub_add_cancel
  unfold entry
  split
  · exact back ‹_›
  · split
    · exact back ‹_›
    · split
      · exact back ‹_›
      · split
        · exact back ‹_›
        · split
          · exact back ‹_›
          · rfl

theorem entry_inj {r r' : RegisterNumber} : entry r.number = entry r'.number ↔ r = r' := by
  refine ⟨fun same => ?_, fun same => by rw [same]⟩
  have numbers := congrArg Place.number same
  rw [number_entry, number_entry] at numbers
  rw [← ofNat_ctorIdx r, ← ofNat_ctorIdx r']
  exact congrArg ofNat numbers

theorem bits_le (r : RegisterNumber) : r.bits ≤ (entry r.number).width := by
  cases r <;> decide

end Places

section Reading

variable {Hardware : Type} {m : Machine Hardware} {r other : RegisterNumber} {v : Nat}

theorem read_write_same (fits : v < 2 ^ r.bits) (m : Machine Hardware) : read r (write r v m) = v := by
  refine (load_store_same _).trans (Nat.mod_eq_of_lt (Nat.lt_of_lt_of_le fits ?_))
  exact Nat.pow_le_pow_right (by decide) (bits_le r)

theorem read_write_other (apart : other ≠ r) (v : Nat) (m : Machine Hardware) : read other (write r v m) = read other m :=
  load_store_other fun same => apart (entry_inj.mp same)

theorem toNat_kept {w : Nat} (x : BitVec w) : x.toNat = x.toNat % 2 ^ w := (Nat.mod_eq_of_lt x.isLt).symm

theorem toNat_narrowed (x : BitVec 32) : ((x.setWidth 16).setWidth 32).toNat = x.toNat % 2 ^ 16 := by
  rw [BitVec.toNat_setWidth, BitVec.toNat_setWidth]
  omega

theorem word_widened (x : BitVec 16) : (x.setWidth 32).toNat = x.toNat := by
  rw [BitVec.toNat_setWidth]
  omega

theorem byte_widened (x : BitVec 8) : (x.setWidth 32).toNat = x.toNat := by
  rw [BitVec.toNat_setWidth]
  omega

theorem word_lt (x : BitVec 16) : (x.setWidth 32).toNat < 2 ^ 16 := word_widened x ▸ x.isLt

theorem byte_lt (x : BitVec 8) : (x.setWidth 32).toNat < 2 ^ 8 := byte_widened x ▸ x.isLt

/-- What is saved fits the hardware. -/
theorem read_save_lt (fxsave : Hardware → FPU.State) (m : Machine Hardware) (r : RegisterNumber) :
    read r (save fxsave m) < 2 ^ r.bits := by
  cases r <;> first
    | exact BitVec.isLt _
    | exact word_lt _
    | exact byte_lt _

theorem read_save_status (fxsave : Hardware → FPU.State) (m : Machine Hardware) (status : r.IsStatus) :
    read r (save fxsave m) = statusWord (fxsave m.hardware) r := by
  cases r <;> first
    | rfl
    | exact word_widened _
    | exact byte_widened _
    | exact absurd status (by decide)

variable {fxsave : Hardware → FPU.State} {fxrstor : FPU.State → Hardware} (inverse : ∀ fpu, fxsave (fxrstor fpu) = fpu)
include inverse

/-- The words of the unit are written over what was stored for them. -/
theorem read_restored_status (m : Machine Hardware) (status : r.IsStatus) :
    read r (save fxsave (restore fxrstor m)) = statusWord m.fpu r := by
  rw [read_save_status fxsave _ status]
  unfold restore
  dsimp only
  rw [inverse]
  cases r <;> rfl

/-- What was stored for another register is restored, as far as it fits the hardware. -/
theorem read_restored (m : Machine Hardware) (other : ¬ r.IsStatus) :
    read r (save fxsave (restore fxrstor m)) = read r m % 2 ^ r.bits := by
  unfold save restore
  dsimp only
  rw [inverse]
  cases r <;> first
    | exact toNat_kept _
    | exact toNat_narrowed _
    | exact absurd (by decide) other

end Reading

/-- A value that a debugger writes is read after the registers were restored and saved again, and no
other register has changed, exactly if the register is no control or status word of the
floating-point unit, or the unit has the value already. -/
theorem roundTrip_iff {Hardware : Type} (fxsave : Hardware → FPU.State) (fxrstor : FPU.State → Hardware)
    (inverse : ∀ fpu, fxsave (fxrstor fpu) = fpu) (m : Machine Hardware) (r : RegisterNumber) (v : Nat)
    (fits : v < 2 ^ r.bits) :
    (read r (save fxsave (restore fxrstor (write r v (save fxsave m)))) = v ∧
      ∀ other, other ≠ r →
        read other (save fxsave (restore fxrstor (write r v (save fxsave m)))) = read other (save fxsave m)) ↔
    ¬ r.IsStatus ∨ v = statusWord (fxsave m.hardware) r := by
  have others : ∀ other, other ≠ r →
      read other (save fxsave (restore fxrstor (write r v (save fxsave m)))) = read other (save fxsave m) := by
    intro other apart
    by_cases status : other.IsStatus
    · rw [read_restored_status inverse _ status, read_save_status fxsave m status]
      rfl
    · rw [read_restored inverse _ status, read_write_other apart, Nat.mod_eq_of_lt (read_save_lt fxsave m other)]
  rw [and_iff_left others]
  by_cases status : r.IsStatus
  · rw [read_restored_status inverse _ status, or_iff_right fun other => other status]
    exact eq_comm
  · rw [read_restored inverse _ status, read_write_same fits, Nat.mod_eq_of_lt fits]
    exact iff_of_true rfl (.inl status)

/-- A core whose registers are all zero. -/
def zeroed : Machine FPU.State where
  context := ⟨0, 0, 0, 0, 0, 0, 0, 0, 0, 0, 0, 0, 0, 0, 0, 0, 0, 0, 0, 0, 0, 0⟩
  hardware := ⟨0, 0, 0, 0, 0, 0, 0, 0, 0, fun _ => 0, fun _ => 0⟩
  registers := ⟨fun _ => 0, fun _ => 0, fun _ => 0, fun _ => 0, fun _ => 0, fun _ => 0⟩
  fpu := ⟨0, 0, 0, 0, 0, 0, 0, 0, 0, fun _ => 0, fun _ => 0⟩

theorem roundTrip_xmm : (read xmm3 (save id (restore id (write xmm3 77 (save id zeroed)))) = 77 ∧
      ∀ other, other ≠ xmm3 →
        read other (save id (restore id (write xmm3 77 (save id zeroed)))) = read other (save id zeroed)) ↔
    ¬ xmm3.IsStatus ∨ 77 = statusWord (id zeroed.hardware) xmm3 :=
  roundTrip_iff id id (fun _ => rfl) zeroed xmm3 77 (by decide)

/-- The control word 0x37f is lost. -/
theorem control_word_is_lost : read fctrl (save id (restore id (write fctrl 0x37f (save id zeroed)))) ≠ 0x37f := by
  decide

end MPStuBS.DebugState
