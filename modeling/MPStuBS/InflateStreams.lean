import MPStuBS.InflateHeaders

/-! A stream that is compressed block by block is inflated to what its blocks stand for, as far as the buffer
is large enough for it. -/
namespace MPStuBS.PNG

open PrefixCode Deflate

section Stored

variable {bitstream out₀ : List UInt8} {p : Nat}

/-- A byte is loaded whose bits come next. -/
theorem Ahead.load {byte : UInt8} {bytes : List UInt8} (ahead : Ahead bitstream (8 * p) (bitsOf (byte :: bytes))) :
    PNG.load bitstream p = .ok byte := by
  have bits : ∀ i < 8, bitstream[p]?.map (fun first => first.toNat.testBit i) = some (byte.toNat.testBit i) := by
    intro i inside
    obtain ⟨rest, whole⟩ := ahead
    have bit : (bitsOf (byte :: bytes) ++ rest)[i]? = some (byte.toNat.testBit i) := by
      rw [bitsOf_cons, List.append_assoc, List.getElem?_append_left (by simpa using inside)]
      simp [low, List.getElem?_range inside]
    rw [whole, List.getElem?_drop, getElem?_bitsOf, Nat.mul_add_div (by decide), Nat.div_eq_of_lt inside, Nat.mul_add_mod,
      Nat.mod_eq_of_lt inside, Nat.add_zero] at bit
    exact bit
  obtain ⟨first, found, -⟩ := Option.map_eq_some_iff.mp (bits 0 (by decide))
  have same : first = byte := byte_ext fun i inside => by
    have bit := bits i inside
    rw [found] at bit
    exact Option.some.inj bit
  unfold PNG.load
  rw [found, same]

theorem Ahead.next {byte : UInt8} {bytes : List UInt8} (ahead : Ahead bitstream (8 * p) (bitsOf (byte :: bytes))) :
    Ahead bitstream (8 * (p + 1)) (bitsOf bytes) := by
  have next := Ahead.right (w := low 8 byte.toNat) ahead
  rw [length_low] at next
  exact next

theorem copyStored_copies (bytes : List UInt8) : ∀ {p h}, Ahead bitstream (8 * p) (bitsOf bytes) →
    h.length + bytes.length ≤ out₀.length →
      copyStored bitstream bytes.length p (.after out₀ h) = .ok (.after out₀ (h ++ bytes)) := by
  induction bytes with
  | nil =>
    intro p h _ _
    rw [List.append_nil]
    rfl
  | cons byte bytes ih =>
    intro p h ahead fits
    rw [List.length_cons] at fits
    rw [List.length_cons, copyStored, ahead.load, ok_bind, Output.put_after byte (by omega), ok_bind,
      ih ahead.next (by rw [List.length_append, List.length_singleton]; omega), List.append_assoc]
    rfl

/-- Behind the padding, and with less than 64 KiB. -/
theorem inflateUncompressed_reads {h bytes : List UInt8} {padding : List Bool} {bp : Nat} (few : bytes.length < 65536)
    (aligned : padding.length < 8 ∧ (bp + padding.length) % 8 = 0) (short : bitstream.length + 2 < 2 ^ 64)
    (inside : h.length ≤ out₀.length) (ahead : Ahead bitstream bp (padding ++ bitsOf (storedLength bytes.length) ++ bitsOf bytes)) :
    inflateUncompressed bitstream bp (.after out₀ h) (bitstream.length + 2) =
      if h.length + bytes.length < out₀.length then
        .ok (bp + (padding ++ bitsOf (storedLength bytes.length) ++ bitsOf bytes).length, .after out₀ (h ++ bytes))
      else malformed := by
  obtain ⟨less, whole⟩ := aligned
  obtain ⟨p, start⟩ : ∃ p, bp + padding.length = 8 * p := ⟨(bp + padding.length) / 8, by omega⟩
  have here : (bp + 7) / 8 = p := by omega
  have stored : (storedLength bytes.length).length = 4 := rfl
  have ends := ahead.inside (List.ne_nil_of_length_pos (by simp only [List.length_append, length_bitsOf, stored]; omega))
  simp only [List.length_append, length_bitsOf, stored] at ends ⊢
  have header := ahead.left.right
  rw [start] at header
  have body := ahead.right
  have behind : bp + (padding ++ bitsOf (storedLength bytes.length)).length = 8 * (p + 4) := by
    rw [List.length_append, length_bitsOf, stored]
    omega
  rw [behind] at body
  have room : ¬ sub64 (bitstream.length + 2) 4 ≤ p := by
    unfold sub64
    omega
  have len : bytes.length.toUInt8.toNat + 256 * (bytes.length / 256).toUInt8.toNat = bytes.length := by
    simp only [Nat.toUInt8_eq, UInt8.toNat_ofNat']
    omega
  have nlen : (255 - bytes.length % 256).toUInt8.toNat + 256 * (255 - bytes.length / 256).toUInt8.toNat =
      65535 - bytes.length := by
    simp only [Nat.toUInt8_eq, UInt8.toNat_ofNat']
    omega
  have size := Output.length_after inside
  have position : (Output.after out₀ h).pos = h.length := rfl
  unfold inflateUncompressed
  dsimp only
  rw [here, if_neg room, header.load, ok_bind, header.next.load, ok_bind, header.next.next.load, ok_bind,
    header.next.next.next.load, ok_bind, len, nlen, if_neg (by omega), size, position]
  by_cases full : out₀.length ≤ h.length + bytes.length
  · rw [if_pos full, if_neg (Nat.not_lt.mpr full)]
  · rw [if_neg full, if_pos (Nat.not_le.mp full), if_neg (by omega), copyStored_copies bytes body (by omega), ok_bind,
      show (p + 4 + bytes.length) * 8 = bp + (padding.length + 8 * 4 + 8 * bytes.length) by omega]
    rfl

end Stored

section Blocks

def blockFits (size : Nat) (h : List UInt8) : Deflate.Block → Bool
  | .stored _ bytes => h.length + bytes.length < size
  | .fixed tokens => tokensFit size h tokens
  | .dynamic _ tokens => tokensFit size h tokens

def blocksFit (size : Nat) : List UInt8 → List Deflate.Block → Bool
  | _, [] => true
  | h, block :: rest => blockFits size h block && blocksFit size (block.expand h) rest

/-- A block that begins with its kind at this bit. Stored bytes begin at a byte. -/
def BlockValid (bp : Nat) (h : List UInt8) : Deflate.Block → Prop
  | .stored padding bytes => bytes.length < 65536 ∧ padding.length < 8 ∧ (bp + 2 + padding.length) % 8 = 0
  | .fixed tokens => TokensValid (· < 288) (· < 32) h tokens
  | .dynamic header tokens => HeaderValid header ∧
    TokensValid (Used header.literalLengths) (Used header.distanceLengths) h tokens

def BlocksValid : Nat → List UInt8 → List Deflate.Block → Prop
  | _, _, [] => True
  | bp, h, block :: rest => BlockValid (bp + 1) h block ∧ BlocksValid (bp + 1 + block.bits.length) (block.expand h) rest

variable {bitstream out₀ : List UInt8} (short : bitstream.length + 2 < 2 ^ 64) (small : out₀.length < 2 ^ 64)

theorem tokensFit_le {size : Nat} (tokens : List Token) : ∀ {h}, tokensFit size h tokens → h.length ≤ size →
    (tokens.foldl Token.expand h).length ≤ size := by
  induction tokens with
  | nil => exact fun _ fits => fits
  | cons token tokens ih =>
    intro h fits _
    rw [tokensFit, Bool.and_eq_true] at fits
    refine ih fits.2 ?_
    rw [length_expand]
    cases token with
    | literal byte => exact of_decide_eq_true fits.1
    | copy i e j d => exact Nat.le_of_lt (of_decide_eq_true fits.1)

theorem blockFits_le {size : Nat} {h : List UInt8} {block : Deflate.Block} (fits : blockFits size h block) (inside : h.length ≤ size) :
    (block.expand h).length ≤ size := by
  cases block with
  | stored padding bytes =>
    rw [Deflate.Block.expand, List.length_append]
    exact Nat.le_of_lt (of_decide_eq_true fits)
  | fixed tokens => exact tokensFit_le tokens fits inside
  | dynamic header tokens => exact tokensFit_le tokens fits inside

theorem blocksFit_le {size : Nat} (blocks : List Deflate.Block) : ∀ {h}, blocksFit size h blocks → h.length ≤ size →
    (blocks.foldl Deflate.Block.expand h).length ≤ size := by
  induction blocks with
  | nil => exact fun _ inside => inside
  | cons block rest ih =>
    intro h fits inside
    rw [blocksFit, Bool.and_eq_true] at fits
    exact ih fits.2 (blockFits_le fits.1 inside)

theorem tokens_nonempty {literal distance : Nat → List Bool} {literals distances : Nat → Prop}
    (nonempty : ∀ n, literals n → literal n ≠ []) (tokens : List Token) : ∀ {h}, TokensValid literals distances h tokens →
      ∀ token ∈ tokens, token.bits literal distance ≠ [] := by
  induction tokens with
  | nil => exact fun _ _ is => absurd is List.not_mem_nil
  | cons first tokens ih =>
    rintro h ⟨valid, rest⟩ token is
    rcases List.mem_cons.mp is with rfl | is
    · cases token with
      | literal byte => exact nonempty _ valid
      | copy i e j d =>
        obtain ⟨-, -, isUsed, -⟩ := valid
        exact List.append_ne_nil_of_left_ne_nil (List.append_ne_nil_of_left_ne_nil (nonempty _ isUsed) _) _
    · exact ih rest token is

include small

/-- There are enough steps for the tokens of a block. -/
theorem inflateSymbols_block {codetree codetreeD : HuffmanTree} {literal distance : Nat → List Bool}
    {literals distances : Nat → Prop} (decodes : Decodes codetree literal literals) (decodesD : Decodes codetreeD distance distances)
    (last : literals 256) {tokens : List Token} {h : List UInt8} {bp : Nat} (valid : TokensValid literals distances h tokens)
    (ahead : Ahead bitstream bp (tokens.flatMap (Token.bits literal distance) ++ literal 256)) (inside : h.length ≤ out₀.length) :
    inflateSymbols bitstream codetree codetreeD (bitstream.length + 2) (8 * bitstream.length + 1) bp (.after out₀ h) =
      if tokensFit out₀.length h tokens then
        .ok (bp + (tokens.flatMap (Token.bits literal distance) ++ literal 256).length, .after out₀ (tokens.foldl Token.expand h))
      else malformed := by
  have some : ∀ token ∈ tokens, token.bits literal distance ≠ [] := tokens_nonempty decodes.nonempty tokens valid
  have few := length_le_flatMap some
  have reached := ahead.inside (by simp [decodes.nonempty 256 last])
  rw [List.length_append] at reached
  exact inflateSymbols_reads decodes decodesD (by omega) small last tokens valid ahead (by omega) inside

include short

/-- The kind of a block is read, and then what it stands for. -/
theorem block_reads {block : Deflate.Block} {h : List UInt8} {bp : Nat} (valid : BlockValid bp h block)
    (ahead : Ahead bitstream bp block.bits) (inside : h.length ≤ out₀.length) :
    ∃ low high btype, readBit bitstream bp = .ok (low, bp + 1) ∧ readBit bitstream (bp + 1) = .ok (high, bp + 2) ∧
      low ||| high <<< 1 = btype ∧ btype < 3 ∧ (if btype = 0 then
          inflateUncompressed bitstream (bp + 2) (.after out₀ h) (bitstream.length + 2)
        else inflateHuffman bitstream (bp + 2) (.after out₀ h) (bitstream.length + 2) btype) =
          if blockFits out₀.length h block then .ok (bp + block.bits.length, .after out₀ (block.expand h)) else malformed := by
  cases block with
  | stored padding bytes =>
    obtain ⟨few, less, aligned⟩ := valid
    have rest : Ahead bitstream (bp + 2) _ := Ahead.right (w := [false, false]) ahead
    refine ⟨0, 0, 0, ahead.readBit, ahead.tail.readBit, rfl, by decide, ?_⟩
    rw [if_pos rfl, inflateUncompressed_reads few ⟨less, aligned⟩ short inside rest, Nat.add_assoc bp 2, Nat.add_comm 2]
    simp only [blockFits, decide_eq_true_eq]
    rfl
  | fixed tokens =>
    have rest : Ahead bitstream (bp + 2) _ := Ahead.right (w := [true, false]) ahead
    have block := inflateSymbols_block small fixed_literals fixed_distances (by decide) valid rest inside
    refine ⟨1, 0, 1, ahead.readBit, ahead.tail.readBit, rfl, by decide, ?_⟩
    rw [if_neg (by decide)]
    unfold inflateHuffman
    rw [if_pos rfl, pure_bind']
    dsimp only
    rw [block, Nat.add_assoc bp 2, Nat.add_comm 2]
    rfl
  | dynamic header tokens =>
    obtain ⟨headerValid, valid⟩ := valid
    have rest : Ahead bitstream (bp + 2) _ := Ahead.right (w := [false, true]) ahead
    obtain ⟨codetree, codetreeD, trees, decodes, decodesD⟩ := getTreeInflateDynamic_reads headerValid short rest.left
    have block := inflateSymbols_block small decodes decodesD headerValid.last valid rest.right inside
    refine ⟨0, 1, 2, ahead.readBit, ahead.tail.readBit, rfl, by decide, ?_⟩
    rw [if_neg (by decide)]
    unfold inflateHuffman
    rw [if_neg (by decide), trees, ok_bind]
    dsimp only
    rw [block, Nat.add_assoc (bp + 2), ← List.length_append, Nat.add_assoc bp 2, Nat.add_comm 2]
    rfl

omit short small in
theorem ite_bind {α β : Type} (c : Prop) [Decidable c] (a b : Png α) (f : α → Png β) :
    (if c then a >>= f else b >>= f) = ((if c then a else b) >>= f) := by
  split <;> rfl

/-- Step by step, as far as each block fits. -/
theorem inflateData_reads (blocks : List Deflate.Block) : ∀ {h bp fuel}, blocks ≠ [] → BlocksValid bp h blocks →
    Ahead bitstream bp (Deflate.bits blocks) → blocks.length ≤ fuel → h.length ≤ out₀.length →
      inflateData bitstream (bitstream.length + 2) fuel bp (.after out₀ h) =
        if blocksFit out₀.length h blocks then .ok (.after out₀ (blocks.foldl Deflate.Block.expand h)) else malformed := by
  induction blocks with
  | nil => exact fun none => absurd rfl none
  | cons block rest ih =>
    rintro h bp (_ | fuel) - ⟨valid, valids⟩ ahead enough inside
    · cases enough
    rw [List.length_cons] at enough
    have ahead' : Ahead bitstream (bp + 1) (block.bits ++ Deflate.bits rest) := Ahead.tail ahead
    obtain ⟨low, high, btype, readLow, readHigh, kind, few, block'⟩ := block_reads short small valid ahead'.left inside
    have reached := ahead.inside (by simp [Deflate.bits])
    have before : ¬ bitstream.length + 2 ≤ bp / 8 := by omega
    rw [inflateData, if_neg before, Ahead.readBit ahead, ok_bind]
    dsimp only
    rw [readLow, ok_bind]
    dsimp only
    rw [readHigh, ok_bind]
    dsimp only
    rw [kind, if_neg (Nat.not_le.mpr few), ite_bind, block', blocksFit, List.foldl_cons]
    by_cases fits : blockFits out₀.length h block
    · rw [if_pos fits, fits, Bool.true_and, ok_bind]
      dsimp only
      cases rest with
      | nil => rfl
      | cons next rest =>
        rw [← ih (List.cons_ne_nil _ _) valids ahead'.right (Nat.le_of_succ_le_succ enough) (blockFits_le fits inside)]
        rfl
    · rw [if_neg fits, if_neg (by simp [fits])]
      rfl

end Blocks

section Streams

/-- The two bytes before the blocks. -/
structure ZlibHeader (cmf flg : UInt8) : Prop where
  check : (cmf.toNat * 256 + flg.toNat) % 31 = 0
  method : cmf.toNat &&& 15 = 8
  window : cmf.toNat >>> 4 &&& 15 ≤ 7
  dictionary : flg.toNat >>> 5 &&& 1 = 0

theorem length_le_bits (blocks : List Deflate.Block) : blocks.length ≤ (Deflate.bits blocks).length := by
  induction blocks with
  | nil => exact Nat.le_refl _
  | cons block rest ih =>
    rw [Deflate.bits, List.length_append, List.length_cons, List.length_cons]
    omega

/-- A stream of valid blocks is inflated to what they stand for, whatever follows it, if every literal is
inside the buffer and every copy and every stored block ends before its end. -/
theorem uzInflate_inflates (out rest : List UInt8) (cmf flg : UInt8) (blocks : List Deflate.Block) (header : ZlibHeader cmf flg)
    (any : blocks ≠ []) (valid : BlocksValid 0 [] blocks) (bits : Deflate.bits blocks <+: bitsOf rest)
    (short : rest.length + 2 < 2 ^ 64) (small : out.length < 2 ^ 64) :
    uzInflate out (cmf :: flg :: rest) =
      if blocksFit out.length [] blocks then
        .ok (blocks.foldl Deflate.Block.expand [] ++ out.drop (blocks.foldl Deflate.Block.expand []).length)
      else malformed := by
  have ahead : Ahead rest 0 (Deflate.bits blocks) := bits
  have few := length_le_bits blocks
  have reached := bits.length_le
  rw [length_bitsOf] at reached
  have enough : blocks.length ≤ 8 * (rest.length + 2) := by omega
  have data := inflateData_reads short small blocks any valid ahead enough (Nat.zero_le _)
  obtain ⟨check, method, window, dictionary⟩ := header
  unfold uzInflate
  have first : load (cmf :: flg :: rest) 0 = .ok cmf := rfl
  have second : load (cmf :: flg :: rest) 1 = .ok flg := rfl
  have length : (cmf :: flg :: rest).length = rest.length + 2 := rfl
  rw [length, if_neg (by omega), first, ok_bind, second, ok_bind, if_neg (not_not_intro check),
    if_neg (not_or_intro (not_not_intro method) (Nat.not_lt.mpr window)), if_neg (not_not_intro dictionary)]
  have start : inflateData ((cmf :: flg :: rest).drop 2) (rest.length + 2) (8 * (rest.length + 2)) 0 ⟨out, 0⟩ = _ := data
  rw [start]
  split
  · rfl
  · rfl

def smallHeader : Header where
  literals := 258
  distances := 1
  codeLengths := [0, 0, 1, 0, 0, 0, 0, 0, 0, 0, 0, 0, 0, 0, 0, 2, 0, 2]
  runs := [.manyZeros 97, .length 1, .manyZeros 138, .manyZeros 20, .length 2, .length 2, .length 1]

theorem smallHeader_valid : HeaderValid smallHeader where
  literals := by decide
  distances := by decide
  codeLengths := by decide
  small := by decide
  runs := by
    simp only [smallHeader, RunsValid, Run.Valid, Run.symbol, Used, Header.runLengths]
    decide
  whole := by decide +kernel
  usable := ⟨by decide, by decide, by decide, by decide +kernel, .inl (by decide +kernel)⟩
  usableL := ⟨by decide +kernel, by decide, by decide +kernel, by decide +kernel, .inl (by decide +kernel)⟩
  usableD := ⟨by decide +kernel, by decide, by decide +kernel, by decide +kernel, .inr (by decide +kernel)⟩
  last := by
    unfold Used
    decide +kernel

/-- A block of each kind. -/
def smallBlocks : List Deflate.Block :=
  [.stored (List.replicate 5 false) [98], .dynamic smallHeader [.literal 97, .copy 0 0 0 0], .fixed [.literal 99]]

theorem smallBlocks_valid : BlocksValid 0 [] smallBlocks := by
  have used : Used smallHeader.literalLengths 97 ∧ Used smallHeader.literalLengths 257 ∧
      Used smallHeader.distanceLengths 0 := by
    unfold Used
    decide +kernel
  obtain ⟨literal, length, distance⟩ := used
  have copy : Token.Valid (Used smallHeader.literalLengths) (Used smallHeader.distanceLengths) [98, 97] (.copy 0 0 0 0) :=
    ⟨by decide, by decide, length, by decide, by decide, distance, by decide⟩
  have last : Token.Valid (· < 288) (· < 32) [98, 97, 97, 97, 97] (.literal 99) := by
    show 99 < 288
    decide
  exact ⟨⟨by decide, by decide, by decide⟩, ⟨smallHeader_valid, literal, copy, trivial⟩, ⟨last, trivial⟩, trivial⟩

theorem small_inflates : uzInflate (List.replicate 7 0) [120, 1, 0, 1, 0, 254, 255, 98, 12, 192, 129, 0, 0, 0, 0, 128, 32,
    214, 252, 37, 62, 107, 201, 0] = .ok [98, 97, 97, 97, 97, 99, 0] :=
  uzInflate_inflates (List.replicate 7 0) [0, 1, 0, 254, 255, 98, 12, 192, 129, 0, 0, 0, 0, 128, 32, 214, 252, 37, 62, 107,
    201, 0] 120 1 smallBlocks ⟨by decide, by decide, by decide, by decide⟩ (by decide) smallBlocks_valid (by decide +kernel)
    (by decide) (by decide)

end Streams

end MPStuBS.PNG
