import MPStuBS.InflateEnds
import MPStuBS.PngDecoding
import MPStuBS.Unfiltering

/-! What the PNG decoder does with any file: it reads no chunk that is not there, and writes nothing but its buffers. -/
namespace MPStuBS.PNG

section Chunks

variable {source : List UInt8}

theorem load_inside {i : Nat} (inside : i < source.length) : ∃ byte, load source i = .ok byte := by
  unfold load
  rw [List.getElem?_eq_getElem inside]
  exact ⟨_, rfl⟩

theorem dword_inside {i : Nat} (inside : i + 4 ≤ source.length) : ∃ n, dword source i = .ok n := by
  obtain ⟨a, first⟩ := load_inside (show i < source.length by omega)
  obtain ⟨b, second⟩ := load_inside (show i + 1 < source.length by omega)
  obtain ⟨c, third⟩ := load_inside (show i + 2 < source.length by omega)
  obtain ⟨d, fourth⟩ := load_inside (show i + 3 < source.length by omega)
  refine ⟨a.toNat * 2 ^ 24 + b.toNat * 2 ^ 16 + c.toNat * 2 ^ 8 + d.toNat, ?_⟩
  unfold dword
  rw [first, ok_bind, second, ok_bind, third, ok_bind, fourth, ok_bind]
  rfl

/-- The first pass finds an error, or how much the second pass copies. -/
theorem passes_agree {fuel : Nat} : ∀ {chunk size}, 0 < fuel → source.length < chunk + fuel →
    (∃ e, scanChunks source fuel chunk size = .ok (.error e)) ∨
      ∃ data : List UInt8, scanChunks source fuel chunk size = .ok (.ok (size + data.length)) ∧
        ∀ compressed index m, copyChunks source compressed fuel chunk index m = .ok (store m (compressed + index) data) := by
  induction fuel with
  | zero => exact fun none => absurd none (Nat.lt_irrefl 0)
  | succ fuel ih =>
    intro chunk size _ enough
    have stops : ∀ compressed index m, (.ok m : Png Memory) = .ok (store m (compressed + index) []) := by
      intro compressed index m
      rw [store_nil]
    simp only [scanChunks, copyChunks]
    by_cases past : source.length ≤ chunk
    · simp only [if_pos past]
      exact .inr ⟨[], rfl, stops⟩
    simp only [if_neg past]
    by_cases cut : source.length < chunk + 12
    · rw [if_pos cut]
      exact .inl ⟨_, rfl⟩
    obtain ⟨length, lengthIs⟩ := dword_inside (show chunk + 4 ≤ source.length by omega)
    obtain ⟨type, typeIs⟩ := dword_inside (show chunk + 4 + 4 ≤ source.length by omega)
    obtain ⟨first, firstIs⟩ := load_inside (show chunk + 4 < source.length by omega)
    simp only [if_neg cut, lengthIs, ok_bind, typeIs]
    by_cases huge : 2 ^ 31 - 1 < length
    · rw [if_pos huge]
      exact .inl ⟨_, rfl⟩
    by_cases long : source.length < chunk + length + 12
    · rw [if_neg huge, if_pos long]
      exact .inl ⟨_, rfl⟩
    have inside : ¬ source.length < chunk + 8 + length := by omega
    simp only [if_neg huge, if_neg long, if_neg inside, firstIs, ok_bind]
    by_cases isData : type = chunkId idat
    · simp only [if_pos isData]
      have taken : ((source.drop (chunk + 8)).take length).length = length := by
        rw [List.length_take, List.length_drop]
        omega
      rcases @ih (chunk + (length + 12)) (size + length) (by omega) (by omega) with ⟨e, failed⟩ | ⟨data, scanned, copied⟩
      · exact .inl ⟨e, failed⟩
      · refine .inr ⟨(source.drop (chunk + 8)).take length ++ data, ?_, fun compressed index m => ?_⟩
        · rw [scanned, List.length_append, taken, Nat.add_assoc]
        · have joined := store_append m (compressed + index) ((source.drop (chunk + 8)).take length) data
          rw [taken] at joined
          rw [copied, ← Nat.add_assoc, joined]
    simp only [if_neg isData]
    by_cases isEnd : type = chunkId iend
    · simp only [if_pos isEnd]
      exact .inr ⟨[], rfl, stops⟩
    simp only [if_neg isEnd]
    by_cases critical : first &&& 32 = 0
    · rw [if_pos critical]
      exact .inl ⟨_, rfl⟩
    · rw [if_neg critical]
      exact ih (by omega) (by omega)

/-- The buffer for the data of the chunks is as large as what is copied to it, and no chunk is read that is not
in the file. -/
theorem chunks_agree (source : List UInt8) :
    (∃ e, scanChunks source (source.length + 1) 33 0 = .ok (.error e)) ∨
      ∃ data : List UInt8, scanChunks source (source.length + 1) 33 0 = .ok (.ok data.length) ∧
        ∀ compressed m, copyChunks source compressed (source.length + 1) 33 0 m = .ok (store m compressed data) := by
  refine (@passes_agree source (source.length + 1) 33 0 (Nat.succ_pos source.length) (by omega)).imp id ?_
  rintro ⟨data, scanned, copied⟩
  rw [Nat.zero_add] at scanned
  exact ⟨data, scanned, fun compressed m => copied compressed 0 m⟩

end Chunks

section Lines

variable {m : Memory}

/-- Only bytes from `a` on change, and no more than these. -/
def Within (a n : Nat) (m m' : Memory) : Prop := ∀ j, j < a ∨ a + n ≤ j → m' j = m j

theorem Within.refl (a n : Nat) (m : Memory) : Within a n m m := fun _ _ => rfl

theorem Within.widen {a n b k : Nat} {m m' : Memory} (within : Within a n m m') (start : b ≤ a) (stop : a + n ≤ b + k) :
    Within b k m m' := fun j outside => within j (by omega)

theorem Within.trans {a n : Nat} {m m' m'' : Memory} (first : Within a n m m') (then' : Within a n m' m'') : Within a n m m'' :=
  fun j outside => (then' j outside).trans (first j outside)

theorem unfilterScanline_within (recon scanline : Nat) (precon : Option Nat) {bytewidth length : Nat} (filterType : UInt8)
    (wide : bytewidth ≤ length) (m : Memory) :
    Ends (Within recon length m) (unfilterScanline recon scanline precon bytewidth filterType length m) := by
  have whole : ∀ value, Within recon length m (bytes.fill value recon length 0 m) := fun value j outside =>
    bytes.fill_others value length (by omega)
  have parts : ∀ start rest, Within recon length m
      (bytes.fill rest recon (length - bytewidth) bytewidth (bytes.fill start recon bytewidth 0 m)) := fun start rest j outside =>
    (bytes.fill_others rest (length - bytewidth) (by omega)).trans (bytes.fill_others start bytewidth (by omega))
  unfold unfilterScanline
  dsimp only
  split
  · exact ends_ok (whole _)
  · exact ends_ok (parts _ _)
  · exact ends_ok (whole _)
  · exact ends_ok (parts _ _)
  · exact ends_ok (parts _ _)
  · exact ends_malformed

theorem unfilterLines_within (out inp : Nat) {bytewidth linebytes : Nat} (wide : bytewidth ≤ linebytes) (count : Nat) :
    ∀ {y prevline m}, Ends (Within out (linebytes * (y + count)) m) (unfilterLines out inp bytewidth linebytes count y prevline m) := by
  induction count with
  | zero => exact fun {y prevline m} => ends_pure (Within.refl _ _ m)
  | succ count ih =>
    intro y prevline m
    rw [unfilterLines]
    have line := Nat.mul_le_mul_left linebytes (show y + 1 ≤ y + (count + 1) by omega)
    rw [Nat.mul_succ] at line
    refine (unfilterScanline_within _ _ _ _ wide m).bind fun m' within => ih.mono fun m'' within' => ?_
    rw [Nat.add_right_comm] at within'
    exact (within.widen (Nat.le_add_right _ _) (by omega)).trans within'

theorem unfilter_within (out inp : Nat) {w h bpp : Nat} (any : 0 < w) (small : w * bpp + 7 < 2 ^ 32) (m : Memory) :
    Ends (Within out (lineBytes w bpp * h) m) (unfilter out inp w h bpp m) := by
  have wide : (bpp + 7) % 2 ^ 32 / 8 ≤ lineBytes w bpp := by
    have few := Nat.le_mul_of_pos_left bpp any
    unfold lineBytes
    rw [Nat.mod_eq_of_lt small, Nat.mod_eq_of_lt (by omega)]
    exact Nat.div_le_div_right (Nat.add_le_add_right few 7)
  have lines := @unfilterLines_within out inp _ _ wide h 0 none m
  rwa [Nat.zero_add] at lines

theorem removePaddingFrom_others (out inp olinebits diff count : Nat) : ∀ {obp ibp m j},
    j < 8 * out + obp ∨ 8 * out + obp + olinebits * count ≤ j →
      bitAt (removePaddingFrom out inp olinebits diff count obp ibp m) j = bitAt m j := by
  induction count with
  | zero => exact fun {_ _ _ _} _ => rfl
  | succ count ih =>
    intro obp ibp m j outside
    rw [Nat.mul_succ] at outside
    have line := @copyBits_eq out inp obp ibp olinebits 0 m
    rw [Nat.add_zero, Nat.add_zero] at line
    rw [removePaddingFrom, ih (by omega), line]
    exact bits.fill_others _ olinebits (by omega)

theorem lineBytes_le {w h bpp : Nat} (small : w * bpp + 7 < 2 ^ 32) (noOverflow : w * (h * bpp + 7) / 8 + h < 2 ^ 32)
    (noOverflow' : w * (h * bpp + 7) < 2 ^ 32) : lineBytes w bpp * h ≤ inflatedSize w h bpp := by
  have area : w * (h * bpp + 7) = w * bpp * h + 7 * w := by
    rw [Nat.mul_add, Nat.mul_comm h bpp, ← Nat.mul_assoc, Nat.mul_comm w 7]
  have lines : 8 * (lineBytes w bpp * h) ≤ w * bpp * h + 7 * h := by
    rw [← Nat.mul_assoc, ← Nat.add_mul]
    refine Nat.mul_le_mul_right h ?_
    unfold lineBytes
    rw [Nat.mod_eq_of_lt small]
    omega
  unfold inflatedSize
  rw [Nat.mod_eq_of_lt noOverflow', Nat.mod_eq_of_lt noOverflow, area]
  omega

theorem postProcessScanlines_within {out inp w h bpp : Nat} (any : 0 < w) (whole : bpp < 8 ∨ bpp % 8 = 0) (small : w * bpp + 7 < 2 ^ 32)
    (m : Memory) :
    Ends (fun m' => ∀ j, j < out ∨ out + (w * bpp * h + 7) / 8 ≤ j → j < inp ∨ inp + lineBytes w bpp * h ≤ j → m' j = m j)
      (postProcessScanlines out inp w h bpp m) := by
  have bitsLine : w * bpp % 2 ^ 32 = w * bpp := Nat.mod_eq_of_lt (by omega)
  have lineBytes_eq : lineBytes w bpp = (w * bpp + 7) / 8 := by
    unfold lineBytes
    rw [Nat.mod_eq_of_lt small]
  have bitsPadded : lineBytes w bpp * 8 % 2 ^ 32 = lineBytes w bpp * 8 := Nat.mod_eq_of_lt (by omega)
  unfold postProcessScanlines
  rw [bitsLine, bitsPadded]
  refine Ends.unless fun _ => ?_
  split
  · refine (unfilter_within inp inp any small m).bind fun m' within => ends_pure fun j outside outside' => ?_
    refine (others_bytes (n := w * bpp * h) (fun k outside => ?_) outside).trans (within j outside')
    exact removePaddingFrom_others out inp _ _ h (by omega)
  · rename_i unpadded
    have exact := bits_of_unpadded whole small unpadded
    have size : w * bpp * h = 8 * (lineBytes w bpp * h) := by rw [exact, Nat.mul_assoc]
    exact (unfilter_within out inp any small m).mono fun m' within j outside _ => within j (by omega)

end Lines

section Files

theorem dword_ends (source : List UInt8) (i : Nat) : Ends (fun _ => True) (dword source i) :=
  (ends_load _ _).bind fun _ _ => (ends_load _ _).bind fun _ _ => (ends_load _ _).bind fun _ _ => (ends_load _ _).bind fun _ _ =>
    ends_pure trivial

/-- Without an error the header is read, and its format is known. -/
structure Created (source : List UInt8) (d : Decoder) : Prop where
  source : d.source = source
  buffer : d.buffer = none
  ready : d.error = none → d.state = .header ∧ d.determineFormat ≠ .badFormat

theorem create_ends (source : List UInt8) : Ends (Created source) (create source) := by
  have failed : ∀ {d : Decoder} (e : Error), d.source = source → d.buffer = none → Created source (d.setError e) :=
    fun e same none => ⟨same, none, nofun⟩
  unfold create header
  rw [if_neg (by exact Bool.false_ne_true), if_neg (by exact not_not_intro rfl)]
  split
  · exact ends_pure (failed _ rfl rfl)
  split
  · exact ends_pure (failed _ rfl rfl)
  refine (dword_ends _ _).bind fun id _ => ?_
  split
  · exact ends_pure (failed _ rfl rfl)
  refine (dword_ends _ _).bind fun width _ => (dword_ends _ _).bind fun height _ => ?_
  refine (ends_load _ _).bind fun depth _ => (ends_load _ _).bind fun color _ => ?_
  dsimp only
  split
  · exact ends_pure (failed _ rfl rfl)
  rename_i known
  refine (ends_load _ _).bind fun compression _ => (ends_load _ _).bind fun filter _ => (ends_load _ _).bind fun interlace _ => ?_
  split
  · exact ends_pure (failed _ rfl rfl)
  split
  · exact ends_pure (failed _ rfl rfl)
  split
  · exact ends_pure (failed _ rfl rfl)
  · exact ends_pure ⟨rfl, rfl, fun _ => ⟨rfl, known⟩⟩

theorem store_within (m : Memory) (a : Nat) (content : List UInt8) : Within a content.length m (store m a content) := by
  intro j outside
  unfold store
  split
  · rw [List.getElem?_eq_none (by omega)]
    rfl
  · rfl

variable {malloc : Nat → Nat → Option Nat} {source : List UInt8} {d : Decoder}

/-- What ends stops for an error or where it reads. -/
theorem Ends.stopped {α : Type} {post : α → Prop} {r : Png α} (ends : Ends post r) {stop : Stop} (is : r = .error stop) :
    (∃ e, stop = .error e) ∨ stop = .outOfBounds := by
  obtain ⟨finite, inside⟩ := ends.stop stop is
  cases stop with
  | error e => exact .inl ⟨e, rfl⟩
  | outOfBounds => exact .inr rfl
  | overrun => exact absurd rfl inside
  | endless => exact absurd rfl finite

section Sizes

variable (whole : d.bpp < 8 ∨ d.bpp % 8 = 0) (small : d.height * d.width * d.bpp + 7 < 2 ^ 32)
  (inflated : d.width * (d.height * d.bpp + 7) < 2 ^ 32)
  (inflated' : d.width * (d.height * d.bpp + 7) / 8 + d.height < 2 ^ 32) (zero : ∀ call, malloc call 0 = none)
include whole small inflated inflated' zero

theorem decodeLines_confined (a : Nat) (m : Memory) : Ends (fun r => ∀ j,
      (j < a ∨ a + inflatedSize d.width d.height d.bpp ≤ j) →
      (∀ b, malloc 2 (imageSize d.width d.height d.bpp) = some b → j < b ∨ b + imageSize d.width d.height d.bpp ≤ j) →
        r.2 j = m j) (decodeLines malloc d m a) := by
  unfold decodeLines
  cases address : malloc 2 (imageSize d.width d.height d.bpp) with
  | none => exact ends_ok fun _ _ _ => rfl
  | some b =>
    have some : imageSize d.width d.height d.bpp ≠ 0 := fun none => by
      rw [none, zero] at address
      cases address
    have area : d.width * d.bpp * d.height = d.height * d.width * d.bpp := by rw [Nat.mul_comm, Nat.mul_assoc]
    have size : imageSize d.width d.height d.bpp = (d.width * d.bpp * d.height + 7) / 8 := by
      rw [area, imageSize, Nat.mod_eq_of_lt small]
    have any : 0 < d.width * d.bpp * d.height := by omega
    have width := Nat.pos_of_mul_pos_right (Nat.pos_of_mul_pos_right any)
    have line := Nat.le_mul_of_pos_right (d.width * d.bpp) (Nat.pos_of_mul_pos_left any)
    have small' : d.width * d.bpp + 7 < 2 ^ 32 := by omega
    have lines := lineBytes_le small' inflated' inflated
    have post := @postProcessScanlines_within b a _ d.height _ width whole small' m
    dsimp only
    cases done : postProcessScanlines b a d.width d.height d.bpp m with
    | error stop =>
      rcases post.stopped done with ⟨e, rfl⟩ | rfl
      · exact ends_ok fun _ _ _ => rfl
      · exact ends_error (by decide) (by decide)
    | ok m' =>
      refine ends_ok fun j outside outside' => ?_
      have apart := outside' b rfl
      rw [size] at apart
      exact post.result m' done j apart (by omega)

theorem decodeData_confined (compressed compressedSize : Nat) (m : Memory) : Ends (fun r => ∀ j,
      (∀ a, malloc 1 (inflatedSize d.width d.height d.bpp) = some a → j < a ∨ a + inflatedSize d.width d.height d.bpp ≤ j) →
      (∀ b, malloc 2 (imageSize d.width d.height d.bpp) = some b → j < b ∨ b + imageSize d.width d.height d.bpp ≤ j) →
        r.2 j = m j) (decodeData malloc d m compressed compressedSize) := by
  unfold decodeData
  cases address : malloc 1 (inflatedSize d.width d.height d.bpp) with
  | none => exact ends_ok fun _ _ _ => rfl
  | some a =>
    have ends := uzInflate_ends (contents m a (inflatedSize d.width d.height d.bpp)) (contents m compressed compressedSize)
    dsimp only
    cases result : uzInflate (contents m a (inflatedSize d.width d.height d.bpp)) (contents m compressed compressedSize) with
    | error stop =>
      rcases ends.stopped result with ⟨e, rfl⟩ | rfl
      · exact ends_ok fun _ _ _ => rfl
      · exact ends_error (by decide) (by decide)
    | ok content =>
      have stored := store_within m a content
      rw [ends.result content result, contents, List.length_map, List.length_range] at stored
      refine (decodeLines_confined whole small inflated inflated' zero a (store m a content)).mono fun r same j outside outside' => ?_
      exact (same j (outside a rfl) outside').trans (stored j (outside a rfl))

end Sizes

/-- Whatever is in a file whose image is not too large, it is decoded to an end, and nothing is written but the
buffers that are allocated for it. -/
theorem decode_confined (created : create source = .ok d) (small : d.height * d.width * d.bpp + 7 < 2 ^ 32)
    (inflated : d.width * (d.height * d.bpp + 7) < 2 ^ 32) (inflated' : d.width * (d.height * d.bpp + 7) / 8 + d.height < 2 ^ 32)
    (zero : ∀ call, malloc call 0 = none) (m : Memory) :
    Ends (fun r => ∀ j,
        (∀ size a, scanChunks source (source.length + 1) 33 0 = .ok (.ok size) → malloc 0 size = some a →
          j < a ∨ a + size ≤ j) →
        (∀ a, malloc 1 (inflatedSize d.width d.height d.bpp) = some a → j < a ∨ a + inflatedSize d.width d.height d.bpp ≤ j) →
        (∀ a, malloc 2 (imageSize d.width d.height d.bpp) = some a → j < a ∨ a + imageSize d.width d.height d.bpp ≤ j) → r.2 j = m j)
      (decode malloc d m) := by
  obtain ⟨sourceIs, bufferIs, ready⟩ := (create_ends source).result d created
  unfold decode
  by_cases failed : d.error.isSome
  · rw [if_pos failed]
    exact ends_pure fun _ _ _ _ => rfl
  obtain ⟨state, format⟩ := ready (Option.not_isSome_iff_eq_none.mp failed)
  obtain ⟨positive, whole⟩ := format_bits format
  have header : header d = .ok d := by
    unfold PNG.header
    rw [if_neg failed, if_pos (by rw [state]; exact nofun)]
    rfl
  have release : d.release = d := by
    unfold Decoder.release
    rw [bufferIs]
    rfl
  rw [if_neg failed, if_neg (by rw [state]; exact nofun), header, ok_bind, if_neg failed, if_neg (not_not_intro state)]
  dsimp only
  rw [release, sourceIs]
  rcases chunks_agree source with ⟨e, scanned⟩ | ⟨data, scanned, copied⟩
  · rw [scanned, ok_bind]
    exact ends_pure fun _ _ _ _ => rfl
  rw [scanned, ok_bind]
  dsimp only
  cases address : (if data.length = 0 then none else malloc 0 data.length : Option Nat) with
  | none => exact ends_pure fun _ _ _ _ => rfl
  | some compressed =>
  dsimp only
  rw [copied, ok_bind]
  have copied := store_within m compressed data
  refine (decodeData_confined whole small inflated inflated' zero compressed data.length
    (store m compressed data)).mono fun r same j outside outside₁ outside₂ => (same j outside₁ outside₂).trans (copied j ?_)
  split at address
  · cases address
  · exact outside _ _ rfl address

theorem smallFile_confined : Ends (fun r => ∀ j, 17 ≤ j → j < 1000 ∨ 1007 ≤ j → j < 2000 ∨ 2004 ≤ j → r.2 j = 0)
    (decode smallMalloc smallFile.decoder fun _ => 0) := by
  have created : create smallFile.bytes = .ok smallFile.decoder := create_reads smallFile_valid (by decide)
  have zero : ∀ call, smallMalloc call 0 = none := fun _ => rfl
  have scanned : scanChunks smallFile.bytes (smallFile.bytes.length + 1) 33 0 = .ok (.ok 17) :=
    (scans smallFile_valid 0 fun _ => 0).1
  refine (decode_confined created (by decide) (by decide) (by decide) zero fun _ => 0).mono fun r same j behind outside outside' => ?_
  refine same j (fun size a is address => ?_) (fun a is => Option.some.inj is ▸ outside) fun b is => Option.some.inj is ▸ outside'
  rw [scanned] at is
  cases is
  cases address
  exact .inr behind

end Files

end MPStuBS.PNG
