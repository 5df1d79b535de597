import MPStuBS.DeflateFormat
import MPStuBS.HuffmanBuilding
import MPStuBS.Inflate

/-! What the blocks of a compressed stream are inflated to. The last byte of the buffer is only ever filled
by a literal. -/
namespace MPStuBS.PNG

open PrefixCode Deflate

section Codes

/-- The words of these symbols are read with the tree. -/
structure Decodes (tree : HuffmanTree) (word : Nat → List Bool) (valid : Nat → Prop) : Prop where
  nonempty : ∀ n, valid n → word n ≠ []
  reads : ∀ n, valid n → ∀ bitstream bp inlength, bitstream.length ≤ inlength → Ahead bitstream bp (word n) →
    decodeSymbol bitstream bp tree inlength = .ok (n, bp + (word n).length)

theorem Decodes.of_walks {tree : HuffmanTree} {word : Nat → List Bool} {valid : Nat → Prop}
    (walks : ∀ n, valid n → tree.walk 0 (word n) = some n) : Decodes tree word valid := by
  refine ⟨fun n is empty => ?_, fun n is bitstream bp inlength room ahead => walk_decodes (walks n is) room ahead⟩
  have walked := walks n is
  rw [empty] at walked
  exact absurd walked (by simp [HuffmanTree.walk])

/-- Of a canonical code the symbols that have words. -/
def Used (lens : List Nat) (n : Nat) : Prop := lens.getD n 0 ≠ 0

theorem Usable.decodes {maxbitlen : Nat} {lens : List Nat} (usable : Usable maxbitlen lens) :
    ∃ tree, createLengths maxbitlen lens = .ok tree ∧ Decodes tree (wordOf lens) (Used lens) := by
  obtain ⟨tree, built, leads⟩ := createLengths_leads maxbitlen lens usable.bound usable.short usable.code
  refine ⟨tree, built, .of_walks fun n is => leads n (Finset.mem_filter.mpr ⟨Finset.mem_range.mpr ?_, is⟩)⟩
  by_contra outside
  refine is ?_
  rw [List.getD_eq_getElem?_getD, List.getElem?_eq_none (Nat.not_lt.mp outside)]
  rfl

theorem fixed_literals : Decodes ⟨fixedDeflateCodeTree, 15, 288⟩ fixedLiteral (· < 288) :=
  .of_walks (by decide +kernel)

theorem fixed_distances : Decodes ⟨fixedDistanceTree, 15, 32⟩ fixedDistance (· < 32) :=
  .of_walks (by decide +kernel)

theorem load_length {i : Nat} (is : i < 29) : load PNG.lengthBase i = .ok (Deflate.lengthBase i) ∧
    load lengthExtra i = .ok (lengthBits i) := by
  revert i
  decide

theorem load_distance {j : Nat} (is : j < 30) : load PNG.distanceBase j = .ok (Deflate.distanceBase j) ∧
    load distanceExtra j = .ok (distanceBits j) := by
  revert j
  decide

end Codes

section Output

variable {out₀ h : List UInt8}

/-- The buffer with these bytes at its start. -/
def Output.after (out₀ h : List UInt8) : Output := ⟨h ++ out₀.drop h.length, h.length⟩

theorem Output.length_after (fits : h.length ≤ out₀.length) : (Output.after out₀ h).out.length = out₀.length := by
  unfold Output.after
  rw [List.length_append, List.length_drop]
  omega

theorem Output.put_after (byte : UInt8) (fits : h.length < out₀.length) :
    (Output.after out₀ h).put byte = .ok (.after out₀ (h ++ [byte])) := by
  have inside : (Output.after out₀ h).pos < (Output.after out₀ h).out.length := by
    rw [Output.length_after fits.le]
    exact fits
  unfold Output.put
  rw [if_pos inside]
  unfold Output.after
  rw [List.set_append_right _ _ (Nat.le_refl _), Nat.sub_self, List.drop_eq_getElem_cons fits, List.set_cons_zero,
    List.length_append, List.append_assoc]
  rfl

theorem length_copied (distance : Nat) (n : Nat) : ∀ h, (copied distance n h).length = h.length + n := by
  induction n with
  | zero => exact fun _ => rfl
  | succ n ih =>
    intro h
    rw [copied, ih, List.length_append, List.length_singleton]
    omega

theorem succ_mod {k d : Nat} : (k + 1) % d = if k % d + 1 = d then 0 else k % d + 1 := by
  rcases Nat.eq_zero_or_pos d with rfl | positive
  · simp
  have less := Nat.mod_lt k positive
  have split := Nat.mod_add_div k d
  by_cases whole : k % d + 1 = d
  · rw [if_pos whole, show k + 1 = d * (k / d + 1) by rw [Nat.mul_succ]; omega, Nat.mul_mod_right]
  · rw [if_neg whole, show k + 1 = k % d + 1 + d * (k / d) by omega, Nat.add_mul_mod_self_left,
      Nat.mod_eq_of_lt (show k % d + 1 < d by omega)]

/-- The bytes that are repeated in turn are those that a copy into itself takes. -/
theorem copyBackward_copies {start distance : Nat} (positive : 0 < distance) (behind : distance ≤ start)
    (small : start < 2 ^ 64) (n : Nat) : ∀ {h k}, h.length = start + k → h.length + n ≤ out₀.length →
      (∀ j < k, h[start + j]? = h[start - distance + j % distance]?) →
      copyBackward start distance n (start - distance + k % distance) (.after out₀ h) =
        .ok (.after out₀ (copied distance n h)) := by
  have back : sub64 start distance = start - distance := by
    unfold sub64
    omega
  induction n with
  | zero => exact fun _ _ _ => rfl
  | succ n ih =>
    intro h k length fits periodic
    have less := Nat.mod_lt k positive
    have inside : start - distance + k % distance < h.length := by omega
    have byte : h[start - distance + k % distance]? = some (h.getD (h.length - distance) 0) := by
      have behind' : h.length - distance < h.length := by omega
      rw [List.getD_eq_getElem?_getD, List.getElem?_eq_getElem behind', Option.getD_some, ← List.getElem?_eq_getElem behind']
      by_cases first : k < distance
      · rw [Nat.mod_eq_of_lt first, show h.length - distance = start - distance + k by omega]
      · have earlier := periodic (k - distance) (by omega)
        rw [← Nat.mod_eq_sub_mod (Nat.not_lt.mp first)] at earlier
        rw [← earlier, show h.length - distance = start + (k - distance) by omega]
    have loaded : load (Output.after out₀ h).out (start - distance + k % distance) = .ok (h.getD (h.length - distance) 0) := by
      unfold load Output.after
      rw [List.getElem?_append_left inside, byte]
    have next : (if start ≤ start - distance + k % distance + 1 then sub64 start distance
        else start - distance + k % distance + 1) = start - distance + (k + 1) % distance := by
      rw [back, succ_mod]
      split
      · rw [if_pos (by omega), Nat.add_zero]
      · rw [if_neg (by omega), Nat.add_assoc]
    rw [copyBackward, loaded, ok_bind, next, Output.put_after _ (by omega), ok_bind]
    refine ih (by rw [List.length_append, List.length_singleton]; omega) (by rw [List.length_append, List.length_singleton]; omega)
      fun j before => ?_
    have more := Nat.mod_lt j positive
    rw [List.getElem?_append_left (by omega : start - distance + j % distance < h.length)]
    by_cases last : j = k
    · rw [last, ← length, List.getElem?_concat_length, byte]
    · rw [List.getElem?_append_left (by omega)]
      exact periodic j (by omega)

end Output

section Tokens

/-- Whether the buffer is large enough for a token. A copy never comes to its end. -/
def tokenFits (size : Nat) (h : List UInt8) : Token → Bool
  | .literal _ => h.length < size
  | .copy i e _ _ => h.length + (Deflate.lengthBase i + e) < size

def tokensFit (size : Nat) : List UInt8 → List Token → Bool
  | _, [] => true
  | h, token :: rest => tokenFits size h token && tokensFit size (token.expand h) rest

/-- Every token is valid where it stands. -/
def TokensValid (literals distances : Nat → Prop) : List UInt8 → List Token → Prop
  | _, [] => True
  | h, token :: rest => token.Valid literals distances h ∧ TokensValid literals distances (token.expand h) rest

theorem length_expand (h : List UInt8) (token : Token) : (token.expand h).length = h.length + token.length := by
  cases token with
  | literal byte => exact List.length_append
  | copy i e j d => exact length_copied _ _ h

theorem distanceBase_pos (j : Nat) : 0 < Deflate.distanceBase j := by
  unfold Deflate.distanceBase
  split <;> omega

variable {bitstream out₀ : List UInt8} {codetree codetreeD : HuffmanTree} {literal distance : Nat → List Bool}
  {literals distances : Nat → Prop} {inlength : Nat} (decodes : Decodes codetree literal literals)
  (decodesD : Decodes codetreeD distance distances) (room : bitstream.length < inlength) (small : out₀.length < 2 ^ 64)
include decodes decodesD room small

/-- The tokens of a block are expanded if the buffer is large enough for each of them. -/
theorem inflateSymbols_reads (last : literals 256) (tokens : List Token) : ∀ {h bp fuel},
    TokensValid literals distances h tokens → Ahead bitstream bp (tokens.flatMap (Token.bits literal distance) ++ literal 256) →
    tokens.length < fuel → h.length ≤ out₀.length → inflateSymbols bitstream codetree codetreeD inlength fuel bp (.after out₀ h) =
      if tokensFit out₀.length h tokens then
        .ok (bp + (tokens.flatMap (Token.bits literal distance) ++ literal 256).length, .after out₀ (tokens.foldl Token.expand h))
      else malformed := by
  induction tokens with
  | nil =>
    rintro h bp (_ | fuel) - ahead enough -
    · cases enough
    rw [inflateSymbols, decodes.reads 256 last _ _ _ (Nat.le_of_lt room) ahead, ok_bind]
    rfl
  | cons token tokens ih =>
    rintro h bp (_ | fuel) ⟨valid, rest⟩ ahead enough inside
    · cases enough
    rw [List.flatMap_cons, List.append_assoc] at ahead
    rw [List.length_cons] at enough
    have before : (tokens.flatMap (Token.bits literal distance) ++ literal 256).length + (token.bits literal distance).length =
        ((token :: tokens).flatMap (Token.bits literal distance) ++ literal 256).length := by
      simp only [List.flatMap_cons, List.length_append]
      omega
    rw [← before, tokensFit, List.foldl_cons]
    generalize total : (tokens.flatMap (Token.bits literal distance) ++ literal 256).length = length at ih ⊢
    have onward := fun fits => ih rest ahead.right (Nat.lt_of_succ_lt_succ enough) fits
    have size := Output.length_after inside
    have position : (Output.after out₀ h).pos = h.length := rfl
    rw [length_expand] at onward
    cases token with
    | literal byte =>
      have byteLt := byte.toNat_lt
      rw [inflateSymbols, decodes.reads _ valid _ _ _ (Nat.le_of_lt room) ahead.left, ok_bind]
      dsimp only
      rw [if_neg (by omega), if_pos (by omega), size, position]
      by_cases full : out₀.length ≤ h.length
      · rw [if_pos full, if_neg (by simp [tokenFits, full])]
      · have same : byte.toNat.toUInt8 = byte := UInt8.ofNat_toNat
        rw [if_neg full, same, Output.put_after byte (by omega), ok_bind]
        refine (onward (Nat.not_le.mp full)).trans ?_
        have fits : tokenFits out₀.length h (.literal byte) = true := by simpa [tokenFits] using full
        rw [fits, Bool.true_and, Nat.add_right_comm, Nat.add_assoc]
    | copy i e j d =>
      obtain ⟨known, extra, isUsed, knownD, extraD, isUsedD, behind⟩ := valid
      obtain ⟨base, bits⟩ := load_length known
      obtain ⟨baseD, bitsD⟩ := load_distance knownD
      rw [Token.bits, List.append_assoc, List.append_assoc, List.append_assoc] at ahead
      have word := decodes.nonempty _ isUsed
      have ahead₁ := ahead.right
      have ahead₂ := ahead₁.right
      have ahead₃ := ahead₂.right
      have reached := ahead₃.right.inside (by simp [decodes.nonempty 256 last])
      simp only [length_low] at ahead₂ ahead₃ reached
      rw [inflateSymbols, decodes.reads _ isUsed _ _ _ (Nat.le_of_lt room) ahead.left, ok_bind]
      dsimp only
      rw [if_neg (by omega), if_neg (by omega), if_pos (by omega), Nat.add_sub_cancel_left, base, ok_bind, bits, ok_bind,
        if_neg (by omega), ahead₁.left.readBits extra, ok_bind]
      dsimp only
      rw [decodesD.reads _ isUsedD _ _ _ (Nat.le_of_lt room) ahead₂.left, ok_bind]
      dsimp only
      rw [if_neg (by omega), baseD, ok_bind, bitsD, ok_bind, if_neg (by omega), ahead₃.left.readBits extraD, ok_bind]
      dsimp only
      rw [size, position]
      by_cases full : out₀.length ≤ h.length + (Deflate.lengthBase i + e)
      · rw [if_pos full, if_neg (by simp [tokenFits, full])]
      · have positive := distanceBase_pos j
        have copies : copyBackward h.length (Deflate.distanceBase j + d) (Deflate.lengthBase i + e)
            (h.length - (Deflate.distanceBase j + d) + 0 % (Deflate.distanceBase j + d)) (.after out₀ h) =
              .ok (.after out₀ (copied (Deflate.distanceBase j + d) (Deflate.lengthBase i + e) h)) :=
          copyBackward_copies (by omega) behind (by omega) _ rfl (by omega) (by simp)
        have back : sub64 h.length (Deflate.distanceBase j + d) = h.length - (Deflate.distanceBase j + d) := by
          unfold sub64
          omega
        rw [Nat.zero_mod, Nat.add_zero] at copies
        rw [if_neg full, back, copies, ok_bind]
        have fits : tokenFits out₀.length h (.copy i e j d) = true := by simpa [tokenFits] using full
        have moved : bp + (literal (257 + i)).length + lengthBits i + (distance j).length + distanceBits j =
            bp + ((Token.copy i e j d).bits literal distance).length := by
          simp only [Token.bits, List.length_append, length_low]
          omega
        rw [moved]
        refine (onward (Nat.not_le.mp full).le).trans ?_
        rw [fits, Bool.true_and, Nat.add_right_comm, Nat.add_assoc]

end Tokens

end MPStuBS.PNG
