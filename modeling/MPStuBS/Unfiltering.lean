import MPStuBS.BitStreams
import MPStuBS.Scanlines

/-! The lines of a PNG image are filtered by what is predicted from the bytes around. From the filtered lines
`unfilter` restores them, also in place. -/
namespace MPStuBS.PNG

section Filters

inductive Filter where
  | none
  | sub
  | up
  | average
  | paeth
  deriving DecidableEq, Repr

def Filter.type : Filter → UInt8
  | .none => 0
  | .sub => 1
  | .up => 2
  | .average => 3
  | .paeth => 4

/-- Of three numbers the one that is nearest to another, the first of them where there are several. -/
def nearest (p a b c : Int) : Int :=
  if (p - a).natAbs ≤ (p - b).natAbs ∧ (p - a).natAbs ≤ (p - c).natAbs then a
  else if (p - b).natAbs ≤ (p - c).natAbs then b
  else c

theorem paethPredictor_eq (a b c : Int) : paethPredictor a b c = nearest (a + b - c) a b c := by
  have distance : ∀ p q : Int, (if p > q then p - q else q - p) = ((p - q).natAbs : Int) := by
    intro p q
    split <;> omega
  unfold paethPredictor nearest
  simp only [distance, Nat.cast_le]

/-- The byte that is predicted from those to the left, above, and to the left above. -/
def Filter.predict : Filter → UInt8 → UInt8 → UInt8 → UInt8
  | .none, _, _, _ => 0
  | .sub, a, _, _ => a
  | .up, _, b, _ => b
  | .average, a, b, _ => ((a.toNat + b.toNat) / 2).toUInt8
  | .paeth, a, b, c => UInt8.ofInt (nearest (a.toNat + b.toNat - c.toNat) a.toNat b.toNat c.toNat)

/-- The pixel to the left. -/
def left (bytewidth : Nat) (line : Nat → UInt8) (i : Nat) : UInt8 := if i < bytewidth then 0 else line (i - bytewidth)

def Filter.apply (f : Filter) (bytewidth : Nat) (prior line : Nat → UInt8) (i : Nat) : UInt8 :=
  line i - f.predict (left bytewidth line i) (prior i) (left bytewidth prior i)

end Filters

section Lines

variable {m : Memory} {recon scanline bytewidth length : Nat} {precon : Option Nat} {prior line : Nat → UInt8}

/-- The line before is there, or there is none. -/
def Precedes (m : Memory) (recon length : Nat) (prior : Nat → UInt8) : Option Nat → Prop
  | none => ∀ i < length, prior i = 0
  | some precon => (precon + length ≤ recon ∨ recon + length ≤ precon) ∧ ∀ i < length, m (precon + i) = prior i

/-- The byte above, as the source reads it. -/
def priorAt (precon : Option Nat) (s : Memory) (i : Nat) : UInt8 :=
  match precon with
  | none => 0
  | some precon => s (precon + i)

theorem Precedes.at (before : Precedes m recon length prior precon) {s : Memory} {n i : Nat}
    (filled : bytes.Filled m recon line n s) (most : n ≤ length) (inside : i < length) : priorAt precon s i = prior i := by
  cases precon with
  | none => exact (before i inside).symm
  | some precon =>
    obtain ⟨apart, above⟩ := before
    exact (filled.others (precon + i) (by omega)).trans (above i inside)

/-- What is left to be shown of a loop, or of two of them. -/
theorem fills_whole {value : Memory → Nat → UInt8}
    (is : ∀ i s, i < length → bytes.Filled m recon line i s → value s i = line i) :
    bytes.Filled m recon line length (bytes.fill value recon length 0 m) := by
  have filled : bytes.Filled m recon line (0 + length) (bytes.fill value recon length 0 m) :=
    (Cells.Filled.start bytes m recon line).fill fun i s _ inside => is i s (by omega)
  rwa [Nat.zero_add] at filled

theorem fills_parts {start rest : Memory → Nat → UInt8} (wide : bytewidth ≤ length)
    (first : ∀ i s, i < bytewidth → bytes.Filled m recon line i s → start s i = line i)
    (others : ∀ i s, bytewidth ≤ i → i < length → bytes.Filled m recon line i s → rest s i = line i) :
    bytes.Filled m recon line length (bytes.fill rest recon (length - bytewidth) bytewidth (bytes.fill start recon bytewidth 0 m)) := by
  have filled : bytes.Filled m recon line (bytewidth + (length - bytewidth)) (bytes.fill rest recon (length - bytewidth) bytewidth _) :=
    (fills_whole first).fill fun i s least inside => others i s least (by omega)
  rwa [Nat.add_sub_cancel' wide] at filled

/-- A filtered line is restored, where none of its bytes is overwritten before it is read. -/
theorem unfilterScanline_fills (f : Filter) (positive : 0 < bytewidth) (wide : bytewidth ≤ length)
    (apart : recon ≤ scanline ∨ scanline + length ≤ recon)
    (filtered : ∀ i < length, m (scanline + i) = f.apply bytewidth prior line i)
    (before : Precedes m recon length prior precon) :
    ∃ m', unfilterScanline recon scanline precon bytewidth f.type length m = .ok m' ∧ bytes.Filled m recon line length m' := by
  have read : ∀ i s, i < length → bytes.Filled m recon line i s → s (scanline + i) = f.apply bytewidth prior line i :=
    fun i s inside filled => (filled.others (scanline + i) (by omega)).trans (filtered i inside)
  have back : ∀ i s, bytewidth ≤ i → bytes.Filled m recon line i s → s (recon + (i - bytewidth)) = line (i - bytewidth) :=
    fun i s least filled => filled.content (i - bytewidth) (by omega)
  have above : ∀ i j s, i < length → j < length → bytes.Filled m recon line i s → priorAt precon s j = prior j :=
    fun i j s inside inside' filled => before.at filled inside.le inside'
  cases f with
  | none =>
    refine ⟨_, rfl, fills_whole fun i s inside filled => ?_⟩
    rw [read i s inside filled, Filter.apply, Filter.predict, UInt8.sub_zero]
  | sub =>
    refine ⟨_, rfl, fills_parts wide (fun i s inside filled => ?_) fun i s least inside filled => ?_⟩
    · rw [read i s (by omega) filled, Filter.apply, Filter.predict, left, if_pos inside, UInt8.sub_zero]
    · rw [read i s inside filled, back i s least filled, Filter.apply, Filter.predict, left, if_neg (Nat.not_lt.mpr least),
        UInt8.sub_add_cancel]
  | up =>
    refine ⟨_, rfl, fills_whole fun i s inside filled => ?_⟩
    show s (scanline + i) + priorAt precon s i = _
    rw [read i s inside filled, above i i s inside inside filled, Filter.apply, Filter.predict, UInt8.sub_add_cancel]
  | average =>
    refine ⟨_, rfl, fills_parts wide (fun i s inside filled => ?_) fun i s least inside filled => ?_⟩
    · show s (scanline + i) + average 0 (priorAt precon s i) = _
      rw [read i s (by omega) filled, above i i s (by omega) (by omega) filled, Filter.apply, Filter.predict, left, if_pos inside]
      exact UInt8.sub_add_cancel _ _
    · show s (scanline + i) + average (s (recon + (i - bytewidth))) (priorAt precon s i) = _
      rw [read i s inside filled, back i s least filled, above i i s inside inside filled, Filter.apply, Filter.predict, left,
        if_neg (Nat.not_lt.mpr least)]
      exact UInt8.sub_add_cancel _ _
  | paeth =>
    have nearest' : ∀ a b c : UInt8, paeth a b c = Filter.paeth.predict a b c := fun a b c => by
      unfold paeth Filter.predict
      rw [paethPredictor_eq]
    refine ⟨_, rfl, fills_parts wide (fun i s inside filled => ?_) fun i s least inside filled => ?_⟩
    · show s (scanline + i) + (if precon = none then 0 else paeth 0 (priorAt precon s i) 0) = _
      have predicted : (if precon = none then 0 else paeth 0 (priorAt precon s i) 0) = Filter.paeth.predict 0 (prior i) 0 := by
        rw [above i i s (by omega) (by omega) filled]
        split
        · rename_i first
          subst first
          rw [before i (by omega)]
          decide
        · exact nearest' _ _ _
      rw [predicted, read i s (by omega) filled, Filter.apply, left, left, if_pos inside, if_pos inside, UInt8.sub_add_cancel]
    · show s (scanline + i) + (if precon = none then paeth (s (recon + (i - bytewidth))) 0 0
        else paeth (s (recon + (i - bytewidth))) (priorAt precon s i) (priorAt precon s (i - bytewidth))) = _
      have predicted : (if precon = none then paeth (line (i - bytewidth)) 0 0
          else paeth (line (i - bytewidth)) (prior i) (prior (i - bytewidth))) =
            Filter.paeth.predict (line (i - bytewidth)) (prior i) (prior (i - bytewidth)) := by
        split
        · rename_i first
          subst first
          rw [before i inside, before (i - bytewidth) (by omega)]
          exact nearest' _ _ _
        · exact nearest' _ _ _
      rw [back i s least filled, above i i s inside inside filled, above i (i - bytewidth) s inside (by omega) filled,
        predicted, read i s inside filled, Filter.apply, left, left, if_neg (Nat.not_lt.mpr least), if_neg (Nat.not_lt.mpr least),
        UInt8.sub_add_cancel]

end Lines

section Images

variable {m : Memory} {out inp bytewidth linebytes h : Nat} {filters : Nat → Filter} {lines : Nat → Nat → UInt8}

def before (lines : Nat → Nat → UInt8) (y : Nat) : Nat → UInt8 := if y = 0 then fun _ => 0 else lines (y - 1)

/-- An image whose lines are filtered, each behind the type of its filter. -/
structure Image (m : Memory) (inp bytewidth linebytes h : Nat) (filters : Nat → Filter) (lines : Nat → Nat → UInt8) : Prop where
  types : ∀ y < h, m (inp + (1 + linebytes) * y) = (filters y).type
  filtered : ∀ y < h, ∀ i < linebytes,
    m (inp + (1 + linebytes) * y + 1 + i) = (filters y).apply bytewidth (before lines y) (lines y) i

/-- The bytes of the lines without gaps. -/
def packed (linebytes : Nat) (lines : Nat → Nat → UInt8) (k : Nat) : UInt8 := lines (k / linebytes) (k % linebytes)

theorem packed_at {y i : Nat} (inside : i < linebytes) : packed linebytes lines (linebytes * y + i) = lines y i := by
  unfold packed
  rw [Nat.mul_add_div (by omega), Nat.div_eq_of_lt inside, Nat.add_zero, Nat.mul_add_mod, Nat.mod_eq_of_lt inside]

theorem unfilterLines_fills (positive : 0 < bytewidth) (wide : bytewidth ≤ linebytes) (image : Image m inp bytewidth linebytes h filters lines)
    (apart : out ≤ inp ∨ inp + (1 + linebytes) * h ≤ out) (count : Nat) : ∀ {y s}, y + count = h →
      bytes.Filled m out (packed linebytes lines) (linebytes * y) s →
      ∃ m', unfilterLines out inp bytewidth linebytes count y (if y = 0 then none else some (out + linebytes * (y - 1))) s = .ok m' ∧
        bytes.Filled m out (packed linebytes lines) (linebytes * h) m' := by
  induction count with
  | zero => exact fun {y s} last filled => ⟨s, rfl, by rwa [← last]⟩
  | succ count ih =>
    intro y s last filled
    have line := Nat.mul_le_mul_left (1 + linebytes) (show y + 1 ≤ h by omega)
    rw [Nat.mul_succ] at line
    have expanded : (1 + linebytes) * y = y + linebytes * y := by rw [Nat.add_mul, Nat.one_mul]
    have unread : ∀ a, inp + (1 + linebytes) * y ≤ a → a < inp + (1 + linebytes) * y + (1 + linebytes) → s a = m a :=
      fun a least most => filled.others a (by omega)
    have type : s (inp + (1 + linebytes) * y) = (filters y).type := (unread _ (by omega) (by omega)).trans (image.types y (by omega))
    have filtered : ∀ i < linebytes, s (inp + (1 + linebytes) * y + 1 + i) = (filters y).apply bytewidth (before lines y) (lines y) i :=
      fun i inside => (unread _ (by omega) (by omega)).trans (image.filtered y (by omega) i inside)
    have precedes : Precedes s (out + linebytes * y) linebytes (before lines y)
        (if y = 0 then none else some (out + linebytes * (y - 1))) := by
      unfold before
      split
      · exact fun _ _ => rfl
      · have previous : linebytes * y = linebytes * (y - 1) + linebytes := by
          rw [← Nat.mul_succ, Nat.succ_eq_add_one, Nat.sub_add_cancel (by omega)]
        refine ⟨.inl (by omega), fun i inside => ?_⟩
        rw [Nat.add_assoc]
        exact (filled.content _ (by omega)).trans (packed_at inside)
    obtain ⟨s', restored, filled'⟩ := unfilterScanline_fills (filters y) positive wide (by omega) filtered precedes
    have whole : bytes.Filled m out (packed linebytes lines) (linebytes * (y + 1)) s' := by
      rw [Nat.mul_succ]
      refine (filled.append filled').congr fun k inside => ?_
      split
      · rfl
      · obtain ⟨i, rfl⟩ : ∃ i, k = linebytes * y + i := ⟨k - linebytes * y, by omega⟩
        rw [Nat.add_sub_cancel_left, packed_at (by omega)]
    obtain ⟨m', unfiltered, filled⟩ := ih (by omega) whole
    rw [if_neg (Nat.succ_ne_zero y), Nat.add_sub_cancel] at unfiltered
    refine ⟨m', ?_, filled⟩
    rw [unfilterLines, type, restored]
    exact unfiltered

theorem unfilter_fills {w bpp : Nat} (image : Image m inp ((bpp + 7) / 8) (lineBytes w bpp) h filters lines)
    (apart : out ≤ inp ∨ inp + (1 + lineBytes w bpp) * h ≤ out) (some : 0 < w) (bits : 0 < bpp) (small : w * bpp + 7 < 2 ^ 32) :
    ∃ m', unfilter out inp w h bpp m = .ok m' ∧ bytes.Filled m out (packed (lineBytes w bpp) lines) (lineBytes w bpp * h) m' := by
  have wide : (bpp + 7) / 8 ≤ lineBytes w bpp := by
    unfold lineBytes
    rw [Nat.mod_eq_of_lt small]
    exact Nat.div_le_div_right (Nat.add_le_add_right (Nat.le_mul_of_pos_left bpp some) 7)
  have few := Nat.le_mul_of_pos_left bpp some
  have width : (bpp + 7) % 2 ^ 32 / 8 = (bpp + 7) / 8 := by
    rw [Nat.mod_eq_of_lt (by omega)]
  unfold unfilter
  rw [width]
  exact unfilterLines_fills (by omega) wide image apart h (Nat.zero_add h) (Cells.Filled.start bytes m out _)

end Images

section Bits

theorem testBit_with (v : UInt8) {k i : Nat} (kLt : k < 8) :
    (v ||| 1 <<< k.toUInt8).toNat.testBit i = if i = k then true else v.toNat.testBit i := by
  have mask : ∀ k < 8, (1 <<< k.toUInt8 : UInt8).toNat = 2 ^ k := by decide
  rw [UInt8.toNat_or, mask k kLt, Nat.testBit_or, Nat.testBit_two_pow]
  by_cases here : i = k
  · rw [if_pos here, decide_eq_true here.symm, Bool.or_true]
  · rw [if_neg here, decide_eq_false (Ne.symm here), Bool.or_false]

theorem testBit_without (v : UInt8) {k i : Nat} (kLt : k < 8) (iLt : i < 8) :
    (v &&& ~~~(1 <<< k.toUInt8)).toNat.testBit i = if i = k then false else v.toNat.testBit i := by
  have mask : ∀ k < 8, (~~~(1 <<< k.toUInt8 : UInt8)).toNat = (2 ^ 8 - 1) ^^^ 2 ^ k := by decide
  rw [UInt8.toNat_and, mask k kLt, Nat.testBit_and, Nat.testBit_xor, Nat.testBit_two_pow_sub_one, Nat.testBit_two_pow,
    decide_eq_true iLt]
  by_cases here : i = k
  · rw [if_pos here, decide_eq_true here.symm, Bool.xor_self, Bool.and_false]
  · rw [if_neg here, decide_eq_false (Ne.symm here), Bool.xor_false, Bool.and_true]

theorem bitAt_setBit (m : Memory) (bp : Nat) (bit : Bool) (j : Nat) :
    bitAt (setBit m bp bit) j = if j = bp then bit else bitAt m j := by
  unfold bitAt setBit
  rw [Function.update_apply]
  by_cases byte : j / 8 = bp / 8
  · have same : 7 - j % 8 = 7 - bp % 8 ↔ j = bp := by omega
    rw [if_pos byte, byte]
    cases bit with
    | true =>
      rw [if_pos rfl, testBit_with _ (by omega)]
      simp only [same]
    | false =>
      rw [if_neg Bool.false_ne_true, testBit_without _ (by omega) (by omega)]
      simp only [same]
  · rw [if_neg byte, if_neg (by omega)]

def bits : Cells Memory Bool := ⟨bitAt, setBit, bitAt_setBit⟩

variable {m : Memory} {out inp olinebits ilinebits h : Nat} {content : Nat → Bool} {line : Nat → Nat → Bool}

theorem copyBits_eq (obp ibp n : Nat) : ∀ {i m}, copyBits out inp n (obp + i) (ibp + i) m =
    bits.fill (fun s i => bitAt s (8 * inp + (ibp + i))) (8 * out + obp) n i m := by
  induction n with
  | zero => exact fun {_ _} => rfl
  | succ n ih =>
    intro i m
    rw [copyBits, Nat.add_assoc obp, Nat.add_assoc ibp, ih, Cells.fill, Nat.add_assoc (8 * out)]
    rfl

/-- The bits of a line are copied, where none of them is overwritten before it is read. -/
theorem copyBits_fills {n obp ibp : Nat} (apart : 8 * out + obp ≤ 8 * inp + ibp ∨ 8 * inp + ibp + n ≤ 8 * out + obp)
    (source : ∀ i < n, bitAt m (8 * inp + (ibp + i)) = content i) :
    bits.Filled m (8 * out + obp) content n (copyBits out inp n obp ibp m) := by
  have copied : bits.Filled m (8 * out + obp) content (0 + n)
      (bits.fill (fun s i => bitAt s (8 * inp + (ibp + i))) (8 * out + obp) n 0 m) :=
    (Cells.Filled.start bits m (8 * out + obp) content).fill fun i s _ inside filled =>
      (filled.others _ (by omega)).trans (source i (by omega))
  rw [Nat.zero_add] at copied
  rw [← Nat.add_zero obp, ← Nat.add_zero ibp, copyBits_eq]
  exact copied

/-- The lines of bits without gaps. -/
def packedBits (linebits : Nat) (line : Nat → Nat → Bool) (k : Nat) : Bool := line (k / linebits) (k % linebits)

theorem removePaddingFrom_fills (narrow : olinebits ≤ ilinebits) (apart : out ≤ inp ∨ 8 * inp + ilinebits * h ≤ 8 * out)
    (source : ∀ y < h, ∀ x < olinebits, bitAt m (8 * inp + (ilinebits * y + x)) = line y x) (count : Nat) : ∀ {y s}, y + count = h →
      bits.Filled m (8 * out) (packedBits olinebits line) (olinebits * y) s →
        bits.Filled m (8 * out) (packedBits olinebits line) (olinebits * h)
          (removePaddingFrom out inp olinebits (ilinebits - olinebits) count (olinebits * y) (ilinebits * y) s) := by
  induction count with
  | zero => exact fun {y s} last filled => by rwa [← last]
  | succ count ih =>
    intro y s last filled
    have inLine := Nat.mul_le_mul_left ilinebits (show y + 1 ≤ h by omega)
    have shorter := Nat.mul_le_mul_right y narrow
    rw [Nat.mul_succ] at inLine
    have unread : ∀ x < olinebits, bitAt s (8 * inp + (ilinebits * y + x)) = line y x := fun x inside =>
      (filled.others _ (by omega)).trans (source y (by omega) x inside)
    have apart' : 8 * out + olinebits * y ≤ 8 * inp + ilinebits * y ∨
        8 * inp + ilinebits * y + olinebits ≤ 8 * out + olinebits * y := by omega
    have copied := copyBits_fills apart' unread
    have whole : bits.Filled m (8 * out) (packedBits olinebits line) (olinebits * (y + 1))
        (copyBits out inp olinebits (olinebits * y) (ilinebits * y) s) := by
      rw [Nat.mul_succ]
      refine (filled.append copied).congr fun k inside => ?_
      split
      · rfl
      · obtain ⟨x, rfl⟩ : ∃ x, k = olinebits * y + x := ⟨k - olinebits * y, by omega⟩
        unfold packedBits
        rw [Nat.add_sub_cancel_left, Nat.mul_add_div (by omega), Nat.div_eq_of_lt (by omega), Nat.add_zero, Nat.mul_add_mod,
          Nat.mod_eq_of_lt (by omega)]
    have removed := ih (by omega) whole
    rw [removePaddingFrom]
    rwa [Nat.mul_succ olinebits y, Nat.mul_succ ilinebits y, show ilinebits * y + ilinebits =
      ilinebits * y + olinebits + (ilinebits - olinebits) by omega] at removed

end Bits

section Images

/-- The image that the lines are: their bits, the highest of a byte first, without those that only fill a line. -/
def pixels (lines : Nat → Nat → UInt8) (linebits : Nat) (k : Nat) : Bool :=
  (lines (k / linebits) (k % linebits / 8)).toNat.testBit (7 - k % linebits % 8)

variable {m : Memory} {out inp w h bpp : Nat} {filters : Nat → Filter} {lines : Nat → Nat → UInt8}

theorem bitAt_byte (m : Memory) (a x : Nat) : bitAt m (8 * a + x) = (m (a + x / 8)).toNat.testBit (7 - x % 8) := by
  unfold bitAt
  rw [Nat.mul_add_div (by decide), Nat.mul_add_mod]

theorem others_bytes {m m' : Memory} {a n : Nat} (others : ∀ k, k < 8 * a ∨ 8 * a + n ≤ k → bitAt m' k = bitAt m k)
    {j : Nat} (outside : j < a ∨ a + (n + 7) / 8 ≤ j) : m' j = m j := by
  refine byte_ext fun i inside => ?_
  have bit := others (8 * j + (7 - i)) (by omega)
  have same : ∀ s : Memory, bitAt s (8 * j + (7 - i)) = (s j).toNat.testBit i := fun s => by
    rw [bitAt_byte, Nat.div_eq_of_lt (by omega), Nat.add_zero, Nat.mod_eq_of_lt (by omega), Nat.sub_sub_self (by omega)]
  rwa [same, same] at bit

/-- A line without padding is as many whole bytes. -/
theorem bits_of_unpadded (whole : bpp < 8 ∨ bpp % 8 = 0) (small : w * bpp + 7 < 2 ^ 32)
    (unpadded : ¬(bpp < 8 ∧ w * bpp ≠ lineBytes w bpp * 8)) : w * bpp = 8 * lineBytes w bpp := by
  rcases whole with narrow | wide
  · omega
  · obtain ⟨c, rfl⟩ := Nat.dvd_of_mod_eq_zero wide
    have product : w * (8 * c) = 8 * (w * c) := Nat.mul_left_comm w 8 c
    unfold lineBytes
    rw [Nat.mod_eq_of_lt small]
    omega

/-- Of a filtered image the bits of its pixels are what comes to be in the buffer, and nothing else changes but the
filtered image. -/
theorem postProcessScanlines_restores (image : Image m inp ((bpp + 7) / 8) (lineBytes w bpp) h filters lines)
    (apart : out + (w * bpp * h + 7) / 8 ≤ inp ∨ inp + (1 + lineBytes w bpp) * h ≤ out) (some : 0 < w) (positive : 0 < bpp)
    (whole : bpp < 8 ∨ bpp % 8 = 0) (small : w * bpp + 7 < 2 ^ 32) :
    ∃ m', postProcessScanlines out inp w h bpp m = .ok m' ∧
      (∀ k < w * bpp * h, bitAt m' (8 * out + k) = pixels lines (w * bpp) k) ∧
      ∀ j, j < out ∨ out + (w * bpp * h + 7) / 8 ≤ j → j < inp ∨ inp + (1 + lineBytes w bpp) * h ≤ j → m' j = m j := by
  have lineBytes_eq : lineBytes w bpp = (w * bpp + 7) / 8 := by
    unfold lineBytes
    rw [Nat.mod_eq_of_lt small]
  have bitsLine : w * bpp % 2 ^ 32 = w * bpp := Nat.mod_eq_of_lt (by omega)
  have bitsPadded : lineBytes w bpp * 8 % 2 ^ 32 = lineBytes w bpp * 8 := Nat.mod_eq_of_lt (by omega)
  have inPlace := unfilter_fills image (.inl (Nat.le_refl inp)) some positive small
  have apartLines : out ≤ inp ∨ inp + (1 + lineBytes w bpp) * h ≤ out := by omega
  have direct := unfilter_fills image apartLines some positive small
  have unpaddedBits := bits_of_unpadded whole small
  unfold postProcessScanlines
  rw [if_neg (by omega), bitsLine, bitsPadded]
  generalize lineBytes w bpp = linebytes at *
  have expanded : (1 + linebytes) * h = h + linebytes * h := by rw [Nat.add_mul, Nat.one_mul]
  split
  · obtain ⟨m₁, unfiltered, filled⟩ := inPlace
    have source : ∀ y < h, ∀ x < w * bpp, bitAt m₁ (8 * inp + (linebytes * 8 * y + x)) = (lines y (x / 8)).toNat.testBit (7 - x % 8) := by
      intro y inside x inLine
      have line := Nat.mul_le_mul_left linebytes (show y + 1 ≤ h by omega)
      rw [Nat.mul_succ] at line
      have byte : m₁ (inp + linebytes * y + x / 8) = lines y (x / 8) := by
        rw [Nat.add_assoc]
        exact (filled.content _ (by omega)).trans (packed_at (by omega))
      rw [Nat.mul_comm linebytes 8, Nat.mul_assoc, ← Nat.add_assoc, ← Nat.mul_add, bitAt_byte, byte]
    have behind : linebytes * 8 * h = 8 * (linebytes * h) := by rw [Nat.mul_comm linebytes 8, Nat.mul_assoc]
    have removed := removePaddingFrom_fills (by omega : w * bpp ≤ linebytes * 8) (by omega) source h (Nat.zero_add h)
      (Cells.Filled.start bits m₁ (8 * out) _)
    have gap : sub64 (linebytes * 8) (w * bpp) = linebytes * 8 - w * bpp := by
      unfold sub64
      omega
    refine ⟨removePaddingBits out inp (w * bpp) (linebytes * 8) h m₁, by rw [unfiltered]; rfl, ?_⟩
    unfold removePaddingBits
    rw [gap]
    refine ⟨fun k inside => removed.content k inside, fun j outside outside' => (others_bytes removed.others outside).trans ?_⟩
    exact filled.others j (by omega)
  · rename_i unpadded
    have exact := unpaddedBits unpadded
    have size : w * bpp * h = 8 * (linebytes * h) := by rw [exact, Nat.mul_assoc]
    obtain ⟨m', unfiltered, filled⟩ := direct
    refine ⟨m', unfiltered, fun k inside => ?_, fun j outside _ => filled.others j (by omega)⟩
    have byte : m' (out + k / 8) = packed linebytes lines (k / 8) := filled.content _ (by omega)
    unfold packed at byte
    unfold pixels
    rw [bitAt_byte, byte, exact, Nat.div_div_eq_div_mul, Nat.mod_mul_right_div_self, Nat.mod_mul_right_mod]

/-- Two lines of three pixels of four bits, filtered and as they were. -/
def filteredExample (j : Nat) : UInt8 := [3, 18, 39, 2, 51, 48].getD j 0

def linesExample (y i : Nat) : UInt8 := [18, 48, 69, 96].getD (2 * y + i) 0

theorem example_restores : ∃ m', postProcessScanlines 6 0 3 2 4 filteredExample = .ok m' ∧
    (∀ k < 24, bitAt m' (8 * 6 + k) = pixels linesExample 12 k) ∧
    ∀ j, j < 6 ∨ 6 + 3 ≤ j → j < 0 ∨ 0 + 6 ≤ j → m' j = filteredExample j := by
  have image : Image filteredExample 0 ((4 + 7) / 8) (lineBytes 3 4) 2 (fun y => if y = 0 then .average else .up) linesExample :=
    ⟨by decide, by decide⟩
  have apart : 6 + (3 * 4 * 2 + 7) / 8 ≤ 0 ∨ 0 + (1 + lineBytes 3 4) * 2 ≤ 6 := by decide
  exact postProcessScanlines_restores image apart (by decide) (by decide) (by decide) (by decide)

end Images

end MPStuBS.PNG
