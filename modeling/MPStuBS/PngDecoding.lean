import MPStuBS.InflateStreams
import MPStuBS.PngFiles
import MPStuBS.Unfiltering

/-! A PNG file is decoded to the image it was made of: its lines are filtered, compressed into blocks, and put into
chunks. -/
namespace MPStuBS.PNG

open PrefixCode Deflate

section Files

def be32 (n : Nat) : List UInt8 := [(n / 2 ^ 24).toUInt8, (n / 2 ^ 16).toUInt8, (n / 2 ^ 8).toUInt8, n.toUInt8]

structure Chunk where
  type : List UInt8
  data : List UInt8
  crc : List UInt8
  deriving DecidableEq, Repr

def Chunk.bytes (c : Chunk) : List UInt8 := be32 c.data.length ++ c.type ++ c.data ++ c.crc

structure Chunk.Valid (c : Chunk) : Prop where
  type : c.type.length = 4
  crc : c.crc.length = 4
  short : c.data.length + 12 < 2 ^ 31

/-- Chunks with data, and others that need not be known. -/
def Chunk.Known (c : Chunk) : Prop := c.type = idat ∨ c.type ≠ iend ∧ ∃ first ∈ c.type.head?, first &&& 32 ≠ 0

/-- What ends the chunks is the end of the file, or a chunk behind which anything may follow. -/
inductive Ending : List UInt8 → Prop where
  | file : Ending []
  | chunk (c : Chunk) (rest : List UInt8) : c.Valid → c.type = iend → Ending (c.bytes ++ rest)

structure File where
  width : Nat
  height : Nat
  depth : UInt8
  color : UInt8
  crc : List UInt8
  chunks : List Chunk
  ending : List UInt8
  deriving DecidableEq, Repr

def File.start (f : File) : List UInt8 :=
  signature ++ (be32 13 ++ ihdr ++ (be32 f.width ++ be32 f.height ++ [f.depth, f.color, 0, 0, 0]) ++ f.crc)

def File.bytes (f : File) : List UInt8 := f.start ++ f.chunks.flatMap Chunk.bytes ++ f.ending

def dataOf (chunks : List Chunk) : List UInt8 := chunks.flatMap fun c => if c.type = idat then c.data else []

structure File.Valid (f : File) : Prop where
  width : 0 < f.width ∧ f.width < 2 ^ 32
  height : 0 < f.height ∧ f.height < 2 ^ 32
  crc : f.crc.length = 4
  chunks : ∀ c ∈ f.chunks, c.Valid ∧ c.Known
  ending : Ending f.ending

end Files

section Chunks

variable {before rest l : List UInt8} {n : Nat}

theorem load_behind (i : Nat) : load (before ++ l) (before.length + i) = load l i := by
  unfold load
  rw [List.getElem?_append_right (Nat.le_add_right _ _), Nat.add_sub_cancel_left]

theorem dword_behind (i : Nat) : dword (before ++ l) (before.length + i) = dword l i := by
  unfold dword
  simp only [Nat.add_assoc, load_behind]

theorem dword_of {a b c d : UInt8} : dword (a :: b :: c :: d :: l) 0 =
    .ok (a.toNat * 2 ^ 24 + b.toNat * 2 ^ 16 + c.toNat * 2 ^ 8 + d.toNat) := rfl

theorem dword_be32 (small : n < 2 ^ 32) : dword (be32 n ++ l) 0 = .ok n := by
  refine dword_of.trans (congrArg Except.ok ?_)
  simp only [Nat.toUInt8_eq, UInt8.toNat_ofNat']
  omega

theorem dword_id {type : List UInt8} (four : type.length = 4) : dword (type ++ l) 0 = .ok (chunkId type) := by
  obtain ⟨a, b, c, d, rfl⟩ := List.length_eq_four.mp four
  refine dword_of.trans (congrArg Except.ok ?_)
  simp only [chunkId, List.foldl_cons, List.foldl_nil]
  omega

theorem chunkId_inj {type type' : List UInt8} (four : type.length = 4) (four' : type'.length = 4) :
    chunkId type = chunkId type' ↔ type = type' := by
  refine ⟨fun same => ?_, fun same => by rw [same]⟩
  obtain ⟨a, b, c, d, rfl⟩ := List.length_eq_four.mp four
  obtain ⟨a', b', c', d', rfl⟩ := List.length_eq_four.mp four'
  simp only [chunkId, List.foldl_cons, List.foldl_nil] at same
  have := a.toNat_lt
  have := b.toNat_lt
  have := c.toNat_lt
  have := d.toNat_lt
  have := a'.toNat_lt
  have := b'.toNat_lt
  have := c'.toNat_lt
  have := d'.toNat_lt
  have first : a = a' := UInt8.toNat_inj.mp (by omega)
  have second : b = b' := UInt8.toNat_inj.mp (by omega)
  have third : c = c' := UInt8.toNat_inj.mp (by omega)
  have fourth : d = d' := UInt8.toNat_inj.mp (by omega)
  rw [first, second, third, fourth]

theorem length_chunk {c : Chunk} (valid : c.Valid) : c.bytes.length = c.data.length + 12 := by
  obtain ⟨type, crc, -⟩ := valid
  simp only [Chunk.bytes, List.length_append, be32, List.length_cons, List.length_nil, type, crc]
  omega

theorem dataOf_data {c : Chunk} (isData : c.type = idat) (chunks : List Chunk) : dataOf (c :: chunks) = c.data ++ dataOf chunks := by
  unfold dataOf
  rw [List.flatMap_cons, if_pos isData]

theorem dataOf_other {c : Chunk} (other : c.type ≠ idat) (chunks : List Chunk) : dataOf (c :: chunks) = dataOf chunks := by
  unfold dataOf
  rw [List.flatMap_cons, if_neg other, List.nil_append]

/-- What the decoder reads of a chunk. -/
structure ReadsChunk (source : List UInt8) (chunk : Nat) (c : Chunk) : Prop where
  inside : chunk + (c.data.length + 12) ≤ source.length
  length : dword source chunk = .ok c.data.length
  type : dword source (chunk + 4) = .ok (chunkId c.type)
  first : ∃ first ∈ c.type.head?, load source (chunk + 4) = .ok first
  data : (source.drop (chunk + 8)).take c.data.length = c.data

theorem readsChunk {c : Chunk} (valid : c.Valid) : ReadsChunk (before ++ (c.bytes ++ rest)) before.length c := by
  obtain ⟨type, crc, short⟩ := valid
  have lengthIs : (be32 c.data.length).length = 4 := rfl
  have parts : c.bytes ++ rest = be32 c.data.length ++ (c.type ++ (c.data ++ (c.crc ++ rest))) := by
    simp only [Chunk.bytes, List.append_assoc]
  have behind : ∀ l, dword (be32 c.data.length ++ l) 4 = dword l 0 := fun l => @dword_behind (be32 c.data.length) l 0
  have behind' : ∀ l, load (be32 c.data.length ++ l) 4 = load l 0 := fun l => @load_behind (be32 c.data.length) l 0
  refine ⟨?_, ?_, ?_, ?_, ?_⟩
  · have length := length_chunk ⟨type, crc, short⟩
    simp only [List.length_append]
    omega
  · rw [parts]
    exact (dword_behind 0).trans (dword_be32 (by omega))
  · rw [parts, dword_behind, behind, dword_id type]
  · obtain ⟨a, b, c', d, is⟩ := List.length_eq_four.mp type
    rw [parts, load_behind, behind', is]
    exact ⟨a, rfl, rfl⟩
  · have whole : before ++ (c.bytes ++ rest) = (before ++ be32 c.data.length ++ c.type) ++ (c.data ++ (c.crc ++ rest)) := by
      rw [parts]
      simp only [List.append_assoc]
    rw [whole, List.drop_left' (by simp only [List.length_append, lengthIs, type]), List.take_left' rfl]

end Chunks

section Buffers

variable {m : Memory} {a k : Nat} {content : List UInt8}

theorem store_at {byte : UInt8} (here : content[k]? = some byte) : store m a content (a + k) = byte := by
  unfold store
  rw [if_pos (Nat.le_add_right a k), Nat.add_sub_cancel_left, here]
  rfl

theorem store_nil (m : Memory) (a : Nat) : store m a [] = m := by
  unfold store
  simp only [List.getElem?_nil, Option.getD_none, ite_self]

theorem store_append (m : Memory) (a : Nat) (content later : List UInt8) :
    store (store m a content) (a + content.length) later = store m a (content ++ later) := by
  funext j
  unfold store
  by_cases before : a + content.length ≤ j
  · rw [if_pos before, if_pos (by omega), if_pos (by omega), List.getElem?_append_right (by omega),
      List.getElem?_eq_none (by omega : content.length ≤ j - a), Nat.sub_sub]
    rfl
  · rw [if_neg before]
    split
    · rw [List.getElem?_append_left (by omega)]
    · rfl

theorem contents_store (m : Memory) (a : Nat) (content : List UInt8) :
    contents (store m a content) a content.length = content := by
  refine List.ext_getElem (by rw [contents, List.length_map, List.length_range]) fun k inside inside' => ?_
  simp only [contents, List.getElem_map, List.getElem_range]
  exact store_at (List.getElem?_eq_getElem inside')

end Buffers

section Scans

variable {ending : List UInt8} (ends : Ending ending)
include ends

theorem scanChunks_scans (chunks : List Chunk) : ∀ {before fuel size}, (∀ c ∈ chunks, c.Valid ∧ c.Known) → chunks.length < fuel →
    scanChunks (before ++ (chunks.flatMap Chunk.bytes ++ ending)) fuel before.length size =
      .ok (.ok (size + (dataOf chunks).length)) := by
  induction chunks with
  | nil =>
    rintro before (_ | fuel) size - enough
    · cases enough
    rw [List.flatMap_nil, List.nil_append]
    cases ends with
    | file =>
      rw [scanChunks, if_pos (by rw [List.append_nil])]
      rfl
    | chunk c rest valid last =>
      obtain ⟨inside, length, type, ⟨first, -, loaded⟩, -⟩ := @readsChunk before rest c valid
      have short := valid.short
      rw [scanChunks, if_neg (by omega), if_neg (by omega), length, ok_bind, if_neg (by omega), if_neg (by omega), type, ok_bind,
        loaded, ok_bind, last, if_neg (by decide), if_pos rfl]
      rfl
  | cons c chunks ih =>
    rintro before (_ | fuel) size valid enough
    · cases enough
    obtain ⟨⟨valid, known⟩, others⟩ := List.forall_mem_cons.mp valid
    rw [List.length_cons] at enough
    have onward := fun size => @ih (before ++ c.bytes) fuel size others (by omega)
    rw [List.flatMap_cons, List.append_assoc]
    obtain ⟨inside, length, type, ⟨first, head, loaded⟩, -⟩ :=
      @readsChunk before (chunks.flatMap Chunk.bytes ++ ending) c valid
    have short := valid.short
    rw [List.length_append, length_chunk valid, List.append_assoc] at onward
    rw [scanChunks, if_neg (by omega), if_neg (by omega), length, ok_bind, if_neg (by omega), if_neg (by omega), type, ok_bind,
      loaded, ok_bind]
    by_cases isData : c.type = idat
    · rw [isData, if_pos rfl, onward, dataOf_data isData, List.length_append, Nat.add_assoc]
    · obtain ⟨notLast, first', head', ancillary⟩ := known.resolve_left isData
      have same : first' = first := Option.mem_unique head' head
      rw [if_neg (isData ∘ (chunkId_inj valid.type rfl).mp), if_neg (notLast ∘ (chunkId_inj valid.type rfl).mp),
        if_neg (same ▸ ancillary), onward, dataOf_other isData]

theorem copyChunks_copies (compressed : Nat) (chunks : List Chunk) : ∀ {before fuel index m},
    (∀ c ∈ chunks, c.Valid ∧ c.Known) → chunks.length < fuel →
    copyChunks (before ++ (chunks.flatMap Chunk.bytes ++ ending)) compressed fuel before.length index m =
      .ok (store m (compressed + index) (dataOf chunks)) := by
  induction chunks with
  | nil =>
    rintro before (_ | fuel) index m - enough
    · cases enough
    rw [List.flatMap_nil, List.nil_append]
    cases ends with
    | file =>
      rw [copyChunks, if_pos (by rw [List.append_nil]), dataOf, List.flatMap_nil, store_nil]
      rfl
    | chunk c rest valid last =>
      obtain ⟨inside, length, type, -, -⟩ := @readsChunk before rest c valid
      rw [copyChunks, if_neg (by omega), length, ok_bind, type, ok_bind, last, if_neg (by decide), if_pos rfl, dataOf,
        List.flatMap_nil, store_nil]
      rfl
  | cons c chunks ih =>
    rintro before (_ | fuel) index m valid enough
    · cases enough
    obtain ⟨⟨valid, known⟩, others⟩ := List.forall_mem_cons.mp valid
    rw [List.length_cons] at enough
    have onward := fun index m => @ih (before ++ c.bytes) fuel index m others (by omega)
    rw [List.flatMap_cons, List.append_assoc]
    obtain ⟨inside, length, type, -, data⟩ :=
      @readsChunk before (chunks.flatMap Chunk.bytes ++ ending) c valid
    rw [List.length_append, length_chunk valid, List.append_assoc] at onward
    rw [copyChunks, if_neg (by omega), length, ok_bind, type, ok_bind]
    by_cases isData : c.type = idat
    · rw [isData, if_pos rfl, if_neg (by omega), data, onward, dataOf_data isData, ← Nat.add_assoc, store_append]
    · obtain ⟨notLast, -⟩ := known.resolve_left isData
      rw [if_neg (isData ∘ (chunkId_inj valid.type rfl).mp), if_neg (notLast ∘ (chunkId_inj valid.type rfl).mp), onward,
        dataOf_other isData]

end Scans

section Headers

/-- What is known of a file when its header is read. -/
def File.decoder (f : File) : Decoder where
  width := f.width
  height := f.height
  colorType := f.color.toNat
  colorDepth := f.depth.toNat
  format := Decoder.determineFormat ⟨f.width, f.height, f.color.toNat, f.depth.toNat, .badFormat, none, 0, .new, [], none⟩
  buffer := none
  size := 0
  state := .header
  source := f.bytes
  error := none

theorem create_reads {f : File} (valid : f.Valid) (format : f.decoder.format ≠ .badFormat) : create f.bytes = .ok f.decoder := by
  have parts : f.bytes = signature ++ be32 13 ++ (ihdr ++ (be32 f.width ++ (be32 f.height ++
      ([f.depth, f.color, 0, 0, 0] ++ (f.crc ++ (f.chunks.flatMap Chunk.bytes ++ f.ending)))))) := by
    simp only [File.bytes, File.start, List.append_assoc]
  have length : ¬ f.bytes.length < 29 := by
    rw [parts]
    simp only [List.length_append, signature, be32, ihdr, List.length_cons, List.length_nil]
    omega
  have begins : f.bytes.take 8 = signature := rfl
  have id : dword f.bytes 12 = .ok (chunkId ihdr) := by
    rw [parts]
    exact (@dword_behind (signature ++ be32 13) _ 0).trans (dword_id rfl)
  have width : dword f.bytes 16 = .ok f.width := by
    rw [parts, ← List.append_assoc _ ihdr]
    exact (@dword_behind (signature ++ be32 13 ++ ihdr) _ 0).trans (dword_be32 valid.width.2)
  have height : dword f.bytes 20 = .ok f.height := by
    rw [parts, ← List.append_assoc _ ihdr, ← List.append_assoc _ (be32 f.width)]
    exact (@dword_behind (signature ++ be32 13 ++ ihdr ++ be32 f.width) _ 0).trans (dword_be32 valid.height.2)
  have depth : load f.bytes 24 = .ok f.depth := rfl
  have color : load f.bytes 25 = .ok f.color := rfl
  have compression : load f.bytes 26 = .ok 0 := rfl
  have filter : load f.bytes 27 = .ok 0 := rfl
  have interlace : load f.bytes 28 = .ok 0 := rfl
  unfold create header
  simp only [Option.isSome_none, Bool.false_eq_true, if_false, ne_eq, not_true_eq_false, length, begins, id, ok_bind, width, height,
    depth, color]
  refine (if_neg format).trans ?_
  simp only [compression, filter, interlace, ok_bind, not_true_eq_false, if_false]
  rfl

/-- A pixel of a known format has at least a bit, and a whole number of bytes or less than one. -/
theorem format_bits {d : Decoder} (format : d.determineFormat ≠ .badFormat) : 0 < d.bpp ∧ (d.bpp < 8 ∨ d.bpp % 8 = 0) := by
  unfold Decoder.determineFormat at format
  unfold Decoder.bpp Decoder.components
  split
  · rename_i lum
    rw [if_pos lum] at format
    split at format <;> simp_all
  rename_i notLum
  rw [if_neg notLum] at format
  split
  · rename_i rgb
    rw [if_pos rgb] at format
    split at format <;> simp_all
  rename_i notRgb
  rw [if_neg notRgb] at format
  split
  · rename_i luma
    rw [if_pos luma] at format
    split at format <;> simp_all
  rename_i notLuma
  rw [if_neg notLuma] at format
  split
  · rename_i rgba
    rw [if_pos rgba] at format
    split at format <;> simp_all
  · rename_i notRgba
    rw [if_neg notRgba] at format
    exact absurd rfl format

end Headers

section Images

theorem length_flatMap_range {α : Type} {f : Nat → List α} {length : Nat} (same : ∀ y, (f y).length = length) (h : Nat) :
    ((List.range h).flatMap f).length = length * h := by
  induction h with
  | zero => rfl
  | succ h ih => rw [List.range_succ, List.flatMap_append, List.length_append, ih, List.flatMap_singleton, same, Nat.mul_succ]

theorem getElem?_flatMap_range {α : Type} {f : Nat → List α} {length : Nat} (same : ∀ y, (f y).length = length) {h y i : Nat}
    (line : y < h) (inside : i < length) : ((List.range h).flatMap f)[length * y + i]? = (f y)[i]? := by
  induction h with
  | zero => cases line
  | succ h ih =>
    rw [List.range_succ, List.flatMap_append, List.flatMap_singleton]
    have whole := length_flatMap_range same h
    by_cases last : y = h
    · rw [last, List.getElem?_append_right (by omega), whole, Nat.add_sub_cancel_left]
    · have less := Nat.mul_le_mul_left length (show y + 1 ≤ h by omega)
      rw [Nat.mul_succ] at less
      rw [List.getElem?_append_left (by omega), ih (by omega)]

variable (bytewidth linebytes : Nat) (filters : Nat → Filter) (lines : Nat → Nat → UInt8)

def filteredLine (y : Nat) : List UInt8 :=
  (filters y).type :: (List.range linebytes).map ((filters y).apply bytewidth (PNG.before lines y) (lines y))

/-- The filtered lines one after the other. -/
def filteredLines (h : Nat) : List UInt8 := (List.range h).flatMap (filteredLine bytewidth linebytes filters lines)

theorem length_filteredLine (y : Nat) : (filteredLine bytewidth linebytes filters lines y).length = 1 + linebytes := by
  rw [filteredLine, List.length_cons, List.length_map, List.length_range, Nat.add_comm]

theorem stored_image {h : Nat} (m : Memory) (inp : Nat) (rest : List UInt8) :
    Image (store m inp (filteredLines bytewidth linebytes filters lines h ++ rest)) inp bytewidth linebytes h filters lines := by
  have same := length_filteredLine bytewidth linebytes filters lines
  have byte : ∀ y < h, ∀ i < 1 + linebytes, (filteredLines bytewidth linebytes filters lines h ++ rest)[(1 + linebytes) * y + i]? =
      (filteredLine bytewidth linebytes filters lines y)[i]? := by
    intro y line i inside
    have less := Nat.mul_le_mul_left (1 + linebytes) (show y + 1 ≤ h by omega)
    rw [Nat.mul_succ] at less
    rw [List.getElem?_append_left (by rw [filteredLines, length_flatMap_range same]; omega)]
    exact getElem?_flatMap_range same line inside
  refine ⟨fun y line => ?_, fun y line i inside => ?_⟩
  · exact store_at (byte y line 0 (by omega))
  · rw [Nat.add_assoc, Nat.add_assoc]
    refine store_at ((byte y line (1 + i) (by omega)).trans ?_)
    rw [Nat.add_comm 1 i, filteredLine, List.getElem?_cons_succ, List.getElem?_map, List.getElem?_range inside]
    rfl

end Images

section Decoding

/-- The image is in the file. -/
structure Encodes (f : File) (blocks : List Deflate.Block) (filters : Nat → Filter) (lines : Nat → Nat → UInt8) : Prop where
  zlib : ∃ cmf flg rest, dataOf f.chunks = cmf :: flg :: rest ∧ ZlibHeader cmf flg ∧ Deflate.bits blocks <+: bitsOf rest
  any : blocks ≠ []
  valid : BlocksValid 0 [] blocks
  image : blocks.foldl Deflate.Block.expand [] =
    filteredLines ((f.decoder.bpp + 7) / 8) (lineBytes f.width f.decoder.bpp) filters lines f.height

variable {malloc : Nat → Nat → Option Nat} {f : File} {blocks : List Deflate.Block} {filters : Nat → Filter}
  {lines : Nat → Nat → UInt8} {m : Memory} {compressed inflated buffer : Nat}

theorem scans (valid : f.Valid) (compressed : Nat) (m : Memory) :
    scanChunks f.bytes (f.bytes.length + 1) 33 0 = .ok (.ok (dataOf f.chunks).length) ∧
      copyChunks f.bytes compressed (f.bytes.length + 1) 33 0 m = .ok (store m compressed (dataOf f.chunks)) := by
  have parts : f.bytes = f.start ++ (f.chunks.flatMap Chunk.bytes ++ f.ending) := List.append_assoc _ _ _
  have start : f.start.length = 33 := by
    simp only [File.start, List.length_append, valid.crc]
    rfl
  have some : ∀ c ∈ f.chunks, c.bytes ≠ [] := fun c is => List.ne_nil_of_length_pos (by
    rw [length_chunk (valid.chunks c is).1]
    omega)
  have few := length_le_flatMap some
  have enough : f.chunks.length < f.bytes.length + 1 := by
    rw [parts, List.length_append, List.length_append]
    omega
  have scanned := @scanChunks_scans _ valid.ending f.chunks f.start _ 0 valid.chunks enough
  have copied := @copyChunks_copies _ valid.ending compressed f.chunks f.start _ 0 m valid.chunks enough
  rw [← parts, start] at scanned copied
  rw [Nat.zero_add] at scanned
  exact ⟨scanned, copied⟩

theorem length_dataOf (chunks : List Chunk) : (dataOf chunks).length ≤ (chunks.flatMap Chunk.bytes).length := by
  induction chunks with
  | nil => exact Nat.le_refl _
  | cons c chunks ih =>
    have length : c.data.length ≤ c.bytes.length := by
      simp only [Chunk.bytes, List.length_append]
      omega
    rw [List.flatMap_cons, List.length_append]
    by_cases isData : c.type = idat
    · rw [dataOf_data isData, List.length_append]
      exact Nat.add_le_add length ih
    · rw [dataOf_other isData]
      omega

/-- The data is taken out of the chunks. -/
theorem decode_begins (valid : f.Valid) (any : dataOf f.chunks ≠ []) (first : malloc 0 (dataOf f.chunks).length = some compressed) :
    decode malloc f.decoder m = decodeData malloc f.decoder (store m compressed (dataOf f.chunks)) compressed
      (dataOf f.chunks).length := by
  obtain ⟨scanned, copied⟩ := scans valid compressed m
  have nonzero : (dataOf f.chunks).length ≠ 0 := fun none => any (List.eq_nil_of_length_eq_zero none)
  have header : header f.decoder = .ok f.decoder := rfl
  have release : f.decoder.release = f.decoder := rfl
  have source : f.decoder.source = f.bytes := rfl
  have noError : ¬ f.decoder.error.isSome = true := Bool.false_ne_true
  have fresh : f.decoder.state ≠ .decoded := nofun
  have ready : ¬ f.decoder.state ≠ .header := not_not_intro rfl
  unfold decode
  rw [if_neg noError, if_neg fresh, header, ok_bind, if_neg noError, if_neg ready]
  dsimp only
  rw [release, source, scanned, ok_bind]
  dsimp only
  rw [if_neg nonzero, first]
  dsimp only
  rw [copied, ok_bind]

/-- A file is decoded to its image if the blocks of its data fit into the buffer for them. -/
theorem decode_restores (valid : f.Valid) (format : f.decoder.format ≠ .badFormat) (encodes : Encodes f blocks filters lines)
    (small : f.height * f.width * f.decoder.bpp + 7 < 2 ^ 32) (short : f.bytes.length < 2 ^ 64)
    (first : malloc 0 (dataOf f.chunks).length = some compressed)
    (second : malloc 1 (inflatedSize f.width f.height f.decoder.bpp) = some inflated)
    (third : malloc 2 (imageSize f.width f.height f.decoder.bpp) = some buffer)
    (apart : inflated + inflatedSize f.width f.height f.decoder.bpp ≤ buffer ∨
      buffer + imageSize f.width f.height f.decoder.bpp ≤ inflated) :
    if blocksFit (inflatedSize f.width f.height f.decoder.bpp) [] blocks then
      ∃ m', (do decode malloc (← create f.bytes) m) = .ok ({ f.decoder with
          buffer := some buffer, size := imageSize f.width f.height f.decoder.bpp, state := .decoded, source := [] }, m') ∧
        ∀ k < f.width * f.decoder.bpp * f.height, bitAt m' (8 * buffer + k) = pixels lines (f.width * f.decoder.bpp) k
    else (do decode malloc (← create f.bytes) m) =
      .ok (f.decoder.setError .malformed, store m compressed (dataOf f.chunks)) := by
  obtain ⟨positive, whole⟩ := format_bits format
  obtain ⟨cmf, flg, rest, data, header, bits⟩ := encodes.zlib
  have any : dataOf f.chunks ≠ [] := by
    rw [data]
    exact List.cons_ne_nil _ _
  have begins := (decode_begins valid any first : decode malloc f.decoder m = _)
  set copied := store m compressed (dataOf f.chunks) with copiedIs
  have length : (contents copied inflated (inflatedSize f.width f.height f.decoder.bpp)).length =
      inflatedSize f.width f.height f.decoder.bpp := by
    rw [contents, List.length_map, List.length_range]
  have sizeLt : inflatedSize f.width f.height f.decoder.bpp < 2 ^ 32 := Nat.mod_lt _ (by decide)
  have few : rest.length + 2 ≤ f.bytes.length := by
    have inside := length_dataOf f.chunks
    rw [data, List.length_cons, List.length_cons] at inside
    simp only [File.bytes, List.length_append]
    omega
  have inflates := uzInflate_inflates (contents copied inflated (inflatedSize f.width f.height f.decoder.bpp)) rest cmf flg blocks header
    encodes.any encodes.valid bits (by omega) (by omega)
  rw [length, ← data, encodes.image] at inflates
  have started : (do decode malloc (← create f.bytes) m) =
      decodeData malloc f.decoder copied compressed (dataOf f.chunks).length := by
    rw [create_reads valid format, ok_bind, begins]
  rw [started]
  unfold decodeData
  have widthIs : f.decoder.width = f.width := rfl
  have heightIs : f.decoder.height = f.height := rfl
  rw [widthIs, heightIs, second]
  dsimp only
  rw [copiedIs, contents_store, ← copiedIs, inflates]
  by_cases fits : blocksFit (inflatedSize f.width f.height f.decoder.bpp) [] blocks
  · have most := blocksFit_le blocks fits (Nat.zero_le _)
    rw [encodes.image, filteredLines, length_flatMap_range (length_filteredLine _ _ filters lines)] at most
    have area : f.width * f.decoder.bpp * f.height = f.height * f.width * f.decoder.bpp := by
      rw [Nat.mul_comm, Nat.mul_assoc]
    have size : imageSize f.width f.height f.decoder.bpp = (f.width * f.decoder.bpp * f.height + 7) / 8 := by
      rw [area, imageSize, Nat.mod_eq_of_lt small]
    have line := Nat.le_mul_of_pos_right (f.width * f.decoder.bpp) valid.height.1
    obtain ⟨m', restored, pixels, -⟩ := postProcessScanlines_restores
      (stored_image ((f.decoder.bpp + 7) / 8) (lineBytes f.width f.decoder.bpp) filters lines copied inflated _)
      (by omega : buffer + (f.width * f.decoder.bpp * f.height + 7) / 8 ≤ inflated ∨
        inflated + (1 + lineBytes f.width f.decoder.bpp) * f.height ≤ buffer) valid.width.1 positive whole (by omega)
    rw [if_pos fits, if_pos fits]
    refine ⟨m', ?_, pixels⟩
    dsimp only
    unfold decodeLines
    rw [widthIs, heightIs, third]
    dsimp only
    rw [restored]
  · rw [if_neg fits, if_neg fits]
    rfl

/-- Two lines of two bytes, with another chunk before the data, and the data in two chunks. -/
def smallFile : File where
  width := 2
  height := 2
  depth := 8
  color := 0
  crc := [0, 0, 0, 0]
  chunks := [⟨[116, 69, 88, 116], [65], [0, 0, 0, 0]⟩, ⟨idat, [120, 1, 1, 6, 0, 249], [0, 0, 0, 0]⟩,
    ⟨idat, [255, 1, 10, 2, 4, 3, 7, 0, 0, 0, 0], [0, 0, 0, 0]⟩]
  ending := Chunk.bytes ⟨iend, [], [0, 0, 0, 0]⟩ ++ [1]

def smallLines (y i : Nat) : UInt8 := ([10, 12, 13, 20].getD (2 * y + i) 0)

def smallFilters (y : Nat) : Filter := if y = 0 then .sub else .paeth

theorem smallFile_valid : smallFile.Valid where
  width := by decide
  height := by decide
  crc := rfl
  chunks := by
    refine List.forall_mem_cons.mpr ⟨⟨⟨rfl, rfl, by decide⟩, .inr ⟨by decide, 116, rfl, by decide⟩⟩, ?_⟩
    refine List.forall_mem_cons.mpr ⟨⟨⟨rfl, rfl, by decide⟩, .inl rfl⟩, ?_⟩
    exact List.forall_mem_cons.mpr ⟨⟨⟨rfl, rfl, by decide⟩, .inl rfl⟩, fun _ => nofun⟩
  ending := .chunk _ _ ⟨rfl, rfl, by decide⟩ rfl

theorem smallFile_encodes : Encodes smallFile [.stored (List.replicate 5 false) [1, 10, 2, 4, 3, 7]] smallFilters smallLines where
  zlib := ⟨120, 1, [1, 6, 0, 249, 255, 1, 10, 2, 4, 3, 7, 0, 0, 0, 0], rfl, ⟨by decide, by decide, by decide, by decide⟩,
    by decide +kernel⟩
  any := by decide
  valid := ⟨⟨by decide, by decide, by decide⟩, trivial⟩
  image := by decide +kernel

def smallMalloc (call size : Nat) : Option Nat := if size = 0 then none else some (1000 * call)

theorem smallFile_restores : ∃ m', (do decode smallMalloc (← create smallFile.bytes) fun _ => 0) =
      .ok ({ smallFile.decoder with buffer := some 2000, size := 4, state := .decoded, source := [] }, m') ∧
    ∀ k < 32, bitAt m' (8 * 2000 + k) = pixels smallLines 16 k := by
  have first : smallMalloc 0 (dataOf smallFile.chunks).length = some 0 := rfl
  have second : smallMalloc 1 (inflatedSize smallFile.width smallFile.height smallFile.decoder.bpp) = some 1000 := rfl
  have third : smallMalloc 2 (imageSize smallFile.width smallFile.height smallFile.decoder.bpp) = some 2000 := rfl
  have restores := decode_restores (m := fun _ => 0) smallFile_valid (by decide) smallFile_encodes (by decide) (by decide)
    first second third (by decide)
  rwa [if_pos (by decide)] at restores

end Decoding

end MPStuBS.PNG
