import MPStuBS.InflateBlocks

/-! What the header of a block describes is what `get_tree_inflate_dynamic` reads: the lengths of the words of
two codes. -/
namespace MPStuBS.PNG

open PrefixCode Deflate

section CodeLengths

variable {bitstream : List UInt8}

/-- The first of the lengths that are stored, at their symbols. -/
def lengthsUpTo (lens : List Nat) (i : Nat) : List Nat :=
  (List.range 19).map fun symbol => if order.idxOf symbol < i then lens.getD (order.idxOf symbol) 0 else 0

theorem set_lengthsUpTo {i : Nat} (inside : i < 19) (lens : List Nat) :
    (lengthsUpTo lens i).set (clcl.getD i 0) (lens.getD i 0) = lengthsUpTo lens (i + 1) := by
  have orders : ∀ i < 19, ∀ symbol < 19, (order.idxOf symbol < i + 1 ↔ order.idxOf symbol < i ∨ clcl.getD i 0 = symbol) ∧
      (clcl.getD i 0 = symbol → order.idxOf symbol = i) := by decide
  refine List.ext_getElem? fun symbol => ?_
  unfold lengthsUpTo
  rw [List.getElem?_set, List.getElem?_map, List.getElem?_map, List.length_map, List.length_range]
  by_cases known : symbol < 19
  · obtain ⟨next, place⟩ := orders i inside symbol known
    rw [List.getElem?_range known, Option.map_some, Option.map_some]
    by_cases here : clcl.getD i 0 = symbol
    · rw [if_pos here, if_pos (here ▸ known), place here, if_pos (Nat.lt_succ_self i)]
    · rw [if_neg here]
      simp only [next, here, or_false]
  · have outside : (List.range 19)[symbol]? = none := List.getElem?_eq_none (by simpa using known)
    rw [outside, Option.map_none, Option.map_none]
    by_cases here : clcl.getD i 0 = symbol
    · rw [if_pos here, if_neg (here ▸ known)]
    · rw [if_neg here]

theorem readCodeLengths_reads {lens : List Nat} (small : ∀ l ∈ lens, l < 8) (few : lens.length ≤ 19) (rest : List Nat) :
    ∀ {i bp}, rest = clcl.drop i → i + rest.length = 19 → Ahead bitstream bp ((lens.drop i).flatMap (low 3)) →
      readCodeLengths bitstream lens.length rest i (lengthsUpTo lens i) bp =
        .ok (lengthsUpTo lens 19, bp + ((lens.drop i).flatMap (low 3)).length) := by
  induction rest with
  | nil =>
    intro i bp _ last _
    have done : i = 19 := last
    rw [done, List.drop_eq_nil_of_le few]
    rfl
  | cons symbol rest ih =>
    intro i bp from' last ahead
    rw [List.length_cons] at last
    have inside : i < clcl.length := by
      show i < 19
      omega
    rw [List.drop_eq_getElem_cons inside, List.cons.injEq] at from'
    obtain ⟨rfl, onward⟩ := from'
    have first : clcl[i] = clcl.getD i 0 := by rw [List.getD_eq_getElem?_getD, List.getElem?_eq_getElem inside]; rfl
    have onward' : ∀ {bp}, Ahead bitstream bp ((lens.drop (i + 1)).flatMap (low 3)) →
        readCodeLengths bitstream lens.length rest (i + 1) (lengthsUpTo lens (i + 1)) bp =
          .ok (lengthsUpTo lens 19, bp + ((lens.drop (i + 1)).flatMap (low 3)).length) := ih onward (by omega)
    rw [readCodeLengths, first]
    by_cases stored : i < lens.length
    · have here : lens[i] = lens.getD i 0 := by rw [List.getD_eq_getElem?_getD, List.getElem?_eq_getElem stored]; rfl
      rw [List.drop_eq_getElem_cons stored, List.flatMap_cons] at ahead ⊢
      have ahead' := ahead.right
      rw [length_low] at ahead'
      rw [if_pos stored, ahead.left.readBits (small _ (List.getElem_mem stored)), ok_bind, here]
      dsimp only
      rw [set_lengthsUpTo (by omega : i < 19), onward' ahead', List.length_append, length_low, Nat.add_assoc]
    · have none : lens.getD i 0 = 0 := by
        rw [List.getD_eq_getElem?_getD, List.getElem?_eq_none (Nat.not_lt.mp stored)]
        rfl
      have past : lens.drop (i + 1) = lens.drop i := by
        rw [List.drop_eq_nil_of_le (by omega), List.drop_eq_nil_of_le (by omega)]
      have next := set_lengthsUpTo (by omega : i < 19) lens
      rw [none] at next
      rw [if_neg stored, next, onward' (past ▸ ahead), past]

end CodeLengths

section Lengths

/-- So many lengths are known. -/
def Lengths.of (hlit : Nat) (h : List Nat) : Lengths :=
  ⟨Header.pad 288 (h.take hlit), Header.pad 32 (h.drop hlit), h.length⟩

theorem set_pad {n : Nat} {lens : List Nat} (fits : lens.length < n) (l : Nat) :
    (Header.pad n lens).set lens.length l = Header.pad n (lens ++ [l]) := by
  unfold Header.pad
  have more : n - lens.length = n - (lens ++ [l]).length + 1 := by
    rw [List.length_append, List.length_singleton]
    omega
  rw [List.set_append_right _ _ (Nat.le_refl _), Nat.sub_self, more, List.replicate_succ, List.set_cons_zero, List.append_assoc]
  rfl

variable {hlit hdist : Nat} {h : List Nat}

theorem store_of (most : hlit ≤ 288) (mostD : hdist ≤ 32) (fits : h.length < hlit + hdist) (l : Nat) :
    (Lengths.of hlit h).store hlit l = .of hlit (h ++ [l]) := by
  unfold Lengths.store Lengths.of
  dsimp only
  by_cases here : h.length < hlit
  · have whole : h.take hlit = h := List.take_of_length_le (Nat.le_of_lt here)
    rw [if_pos here, whole, set_pad (by omega), List.take_of_length_le (by rw [List.length_append, List.length_singleton]; omega),
      List.drop_eq_nil_of_le (Nat.le_of_lt here), List.drop_eq_nil_of_le (by rw [List.length_append, List.length_singleton]; omega), List.length_append]
    rfl
  · have length : h.length - hlit = (h.drop hlit).length := (List.length_drop).symm
    rw [if_neg here, length, set_pad (by rw [List.length_drop]; omega), List.take_append_of_le_length (Nat.not_lt.mp here),
      List.drop_append_of_le_length (Nat.not_lt.mp here), List.length_append]
    rfl

theorem repeat_of (most : hlit ≤ 288) (mostD : hdist ≤ 32) (value n : Nat) : ∀ {h : List Nat}, h.length + n ≤ hlit + hdist →
    Lengths.repeat hlit hdist value n (.of hlit h) = .ok (.of hlit (h ++ List.replicate n value)) := by
  induction n with
  | zero =>
    intro h _
    rw [List.replicate_zero, List.append_nil]
    rfl
  | succ n ih =>
    intro h fits
    have room : ¬ hlit + hdist ≤ (Lengths.of hlit h).i := by
      show ¬ hlit + hdist ≤ h.length
      omega
    rw [Lengths.repeat, if_neg room, store_of most mostD (by omega),
      ih (by rw [List.length_append, List.length_singleton]; omega), List.append_assoc]
    rfl

theorem previous_of (most : hlit ≤ 288) (mostD : hdist ≤ 32) (fits : h.length ≤ hlit + hdist) (any : h ≠ []) :
    (Lengths.of hlit h).previous hlit = .ok (h.getLast?.getD 0) := by
  have positive := List.length_pos_of_ne_nil any
  have last : h[h.length - 1]? = some (h.getLast?.getD 0) := by
    rw [← List.getLast?_eq_getElem?, List.getLast?_eq_some_getLast any]
    rfl
  have before : sub32 h.length 1 = h.length - 1 := by
    unfold sub32
    omega
  unfold Lengths.previous
  show (if sub32 h.length 1 < hlit then load (Header.pad 288 (h.take hlit)) (sub32 h.length 1)
    else load (Header.pad 32 (h.drop hlit)) (sub32 (sub32 h.length hlit) 1)) = _
  rw [before]
  unfold load Header.pad
  by_cases here : h.length - 1 < hlit
  · rw [if_pos here, List.getElem?_append_left (by rw [List.length_take]; omega), List.getElem?_take_of_lt here, last]
  · have beforeD : sub32 (sub32 h.length hlit) 1 = h.length - 1 - hlit := by
      unfold sub32
      omega
    rw [if_neg here, beforeD, List.getElem?_append_left (by rw [List.length_drop]; omega), List.getElem?_drop,
      Nat.add_sub_cancel' (Nat.not_lt.mp here), last]

end Lengths

section Runs

/-- Every description is valid where it stands. -/
def RunsValid (lengths : Nat → Prop) : List Nat → List Run → Prop
  | _, [] => True
  | h, run :: rest => run.Valid lengths h ∧ RunsValid lengths (run.expand h) rest

theorem Run.length_expand {lengths : Nat → Prop} {h : List Nat} {run : Run} (valid : run.Valid lengths h) :
    h.length < (run.expand h).length := by
  obtain ⟨-, rest⟩ := valid
  cases run with
  | length l => simp [Run.expand]
  | again n =>
    obtain ⟨least, -⟩ := rest
    simp only [Run.expand, List.length_append, List.length_replicate]
    omega
  | zeros n =>
    obtain ⟨least, -⟩ := rest
    simp only [Run.expand, List.length_append, List.length_replicate]
    omega
  | manyZeros n =>
    obtain ⟨least, -⟩ := rest
    simp only [Run.expand, List.length_append, List.length_replicate]
    omega

theorem RunsValid.length_le {lengths : Nat → Prop} (runs : List Run) : ∀ {h}, RunsValid lengths h runs →
    h.length + runs.length ≤ (runs.foldl Run.expand h).length := by
  induction runs with
  | nil => exact fun _ => Nat.le_refl _
  | cons run runs ih =>
    rintro h ⟨valid, rest⟩
    have longer := Run.length_expand valid
    have onward := ih rest
    rw [List.foldl_cons, List.length_cons]
    omega

variable {bitstream : List UInt8} {tree : HuffmanTree} {words : Nat → List Bool} {lengths : Nat → Prop}
  {inlength hlit hdist : Nat} (decodes : Decodes tree words lengths) (room : bitstream.length < inlength)
  (most : hlit ≤ 288) (mostD : hdist ≤ 32)
include decodes room most mostD

theorem readLengths_reads (runs : List Run) : ∀ {h bp fuel}, RunsValid lengths h runs →
    (runs.foldl Run.expand h).length = hlit + hdist → Ahead bitstream bp (runs.flatMap (Run.bits words)) → runs.length < fuel →
      readLengths bitstream tree inlength hlit hdist fuel (.of hlit h) bp =
        .ok (.of hlit (runs.foldl Run.expand h), bp + (runs.flatMap (Run.bits words)).length) := by
  induction runs with
  | nil =>
    rintro h bp (_ | fuel) - whole - enough
    · cases enough
    have done : hlit + hdist ≤ (Lengths.of hlit h).i := Nat.le_of_eq whole.symm
    rw [readLengths, if_pos done]
    rfl
  | cons run runs ih =>
    rintro h bp (_ | fuel) ⟨valid, rest⟩ whole ahead enough
    · cases enough
    rw [List.length_cons] at enough
    rw [List.foldl_cons] at whole
    rw [List.flatMap_cons] at ahead
    have longer := Run.length_expand valid
    have expanded := rest.length_le
    have fits : (run.expand h).length ≤ hlit + hdist := by omega
    have more : ¬ hlit + hdist ≤ (Lengths.of hlit h).i := by
      show ¬ hlit + hdist ≤ h.length
      omega
    have onward := ih rest whole ahead.right (Nat.lt_of_succ_lt_succ enough)
    rw [Nat.add_assoc, ← List.length_append, ← List.flatMap_cons] at onward
    obtain ⟨isUsed, known⟩ := valid
    have code := decodes.reads _ isUsed bitstream bp inlength (Nat.le_of_lt room) ahead.left.left
    have ahead' := ahead.left.right
    rw [List.foldl_cons]
    cases run with
    | length l =>
      have short : l ≤ 15 := known
      have code : decodeSymbol bitstream bp tree inlength = .ok (l, bp + (words l).length) := code
      have stored := store_of most mostD (h := h) (by omega) l
      simp only [Run.bits, Run.expand, Run.symbol, List.append_nil] at onward stored ⊢
      rw [readLengths, if_neg more, code, ok_bind]
      dsimp only
      rw [if_pos short, stored, onward]
    | again n =>
      obtain ⟨least, few, any⟩ := known
      have code : decodeSymbol bitstream bp tree inlength = .ok (16, bp + (words 16).length) := code
      have inside := ahead'.inside (List.ne_nil_of_length_pos (by simp))
      have extra := ahead'.readBits (show n - 3 < 2 ^ 2 by omega)
      have previous := previous_of most mostD (h := h) (by omega) any
      simp only [Run.expand, List.length_append, List.length_replicate] at fits
      have repeated := repeat_of most mostD (h.getLast?.getD 0) n (h := h) (by omega)
      simp only [Run.bits, Run.expand, Run.symbol, List.length_append, length_low, ← Nat.add_assoc] at onward inside extra ⊢
      rw [readLengths, if_neg more, code, ok_bind]
      dsimp only
      rw [if_neg (by decide), if_pos rfl, if_neg (by omega), extra, ok_bind]
      dsimp only
      rw [previous, ok_bind, Nat.add_sub_cancel' least, repeated, ok_bind, onward]
    | zeros n =>
      obtain ⟨least, few⟩ := known
      have code : decodeSymbol bitstream bp tree inlength = .ok (17, bp + (words 17).length) := code
      have inside := ahead'.inside (List.ne_nil_of_length_pos (by simp))
      have extra := ahead'.readBits (show n - 3 < 2 ^ 3 by omega)
      simp only [Run.expand, List.length_append, List.length_replicate] at fits
      have repeated := repeat_of most mostD 0 n (h := h) (by omega)
      simp only [Run.bits, Run.expand, Run.symbol, List.length_append, length_low, ← Nat.add_assoc] at onward inside extra ⊢
      rw [readLengths, if_neg more, code, ok_bind]
      dsimp only
      rw [if_neg (by decide), if_neg (by decide), if_pos rfl, if_neg (by omega), extra, ok_bind]
      dsimp only
      rw [Nat.add_sub_cancel' least, repeated, ok_bind, onward]
    | manyZeros n =>
      obtain ⟨least, few⟩ := known
      have code : decodeSymbol bitstream bp tree inlength = .ok (18, bp + (words 18).length) := code
      have inside := ahead'.inside (List.ne_nil_of_length_pos (by simp))
      have extra := ahead'.readBits (show n - 11 < 2 ^ 7 by omega)
      simp only [Run.expand, List.length_append, List.length_replicate] at fits
      have repeated := repeat_of most mostD 0 n (h := h) (by omega)
      simp only [Run.bits, Run.expand, Run.symbol, List.length_append, length_low, ← Nat.add_assoc] at onward inside extra ⊢
      rw [readLengths, if_neg more, code, ok_bind]
      dsimp only
      rw [if_neg (by decide), if_neg (by decide), if_neg (by decide), if_pos rfl, if_neg (by omega), extra, ok_bind]
      dsimp only
      rw [Nat.add_sub_cancel' least, repeated, ok_bind, onward]

end Runs

section Headers

/-- The numbers fit into the header, and each of its codes can be filled into a tree. -/
structure HeaderValid (header : Header) : Prop where
  literals : 257 ≤ header.literals ∧ header.literals ≤ 288
  distances : 1 ≤ header.distances ∧ header.distances ≤ 32
  codeLengths : 4 ≤ header.codeLengths.length ∧ header.codeLengths.length ≤ 19
  small : ∀ l ∈ header.codeLengths, l < 8
  runs : RunsValid (Used header.runLengths) [] header.runs
  whole : header.lengths.length = header.literals + header.distances
  usable : Usable 7 header.runLengths
  usableL : Usable 15 header.literalLengths
  usableD : Usable 15 header.distanceLengths
  last : Used header.literalLengths 256

theorem runLengths_eq (header : Header) : lengthsUpTo header.codeLengths 19 = header.runLengths := by
  have known : ∀ symbol < 19, order.idxOf symbol < 19 := by decide
  unfold lengthsUpTo Header.runLengths
  exact List.map_congr_left fun symbol is => if_pos (known symbol (List.mem_range.mp is))

theorem RunsValid.used {lengths : Nat → Prop} {runs : List Run} {h : List Nat} (valid : RunsValid lengths h runs) :
    ∀ run ∈ runs, lengths run.symbol := by
  induction runs generalizing h with
  | nil => exact fun _ is => absurd is List.not_mem_nil
  | cons run runs ih =>
    intro run' is
    rcases List.mem_cons.mp is with rfl | is
    · exact valid.1.1
    · exact ih valid.2 run' is

theorem length_le_flatMap {α β : Type} {words : α → List β} {tokens : List α} (some : ∀ token ∈ tokens, words token ≠ []) :
    tokens.length ≤ (tokens.flatMap words).length := by
  have same : (tokens.map fun token => (words token).length).length = tokens.length := List.length_map _
  rw [List.length_flatMap, ← same]
  refine List.length_le_sum_of_one_le _ fun n is => ?_
  obtain ⟨token, here, rfl⟩ := List.mem_map.mp is
  exact List.length_pos_of_ne_nil (some token here)

/-- The trees that a header describes read the words of its codes. -/
theorem getTreeInflateDynamic_reads {bitstream : List UInt8} {bp : Nat} {header : Header} (valid : HeaderValid header)
    (short : bitstream.length + 2 < 2 ^ 64) (ahead : Ahead bitstream bp (header.bits (wordOf header.runLengths))) :
    ∃ codetree codetreeD, getTreeInflateDynamic bitstream bp (bitstream.length + 2) =
        .ok (codetree, codetreeD, bp + (header.bits (wordOf header.runLengths)).length) ∧
      Decodes codetree (wordOf header.literalLengths) (Used header.literalLengths) ∧
      Decodes codetreeD (wordOf header.distanceLengths) (Used header.distanceLengths) := by
  obtain ⟨least, most⟩ := valid.literals
  obtain ⟨leastD, mostD⟩ := valid.distances
  obtain ⟨leastC, mostC⟩ := valid.codeLengths
  obtain ⟨tree, built, decodes⟩ := valid.usable.decodes
  obtain ⟨treeL, builtL, decodesL⟩ := valid.usableL.decodes
  obtain ⟨treeD, builtD, decodesD⟩ := valid.usableD.decodes
  refine ⟨treeL, treeD, ?_, decodesL, decodesD⟩
  have inside := ahead.inside (List.ne_nil_of_length_pos (by simp only [Header.bits, List.length_append, length_low]; omega))
  unfold Header.bits at ahead inside ⊢
  have hlit := ahead.left.left.left.left.readBits (show header.literals - 257 < 2 ^ 5 by omega)
  have hdist := ahead.left.left.left.right.readBits (show header.distances - 1 < 2 ^ 5 by omega)
  have hclen := ahead.left.left.right.readBits (show header.codeLengths.length - 4 < 2 ^ 4 by omega)
  have codes := readCodeLengths_reads valid.small mostC clcl (i := 0) rfl rfl ahead.left.right
  have each : ∀ run ∈ header.runs, Run.bits (wordOf header.runLengths) run ≠ [] := fun run is =>
    List.append_ne_nil_of_left_ne_nil (decodes.nonempty _ (valid.runs.used run is)) _
  have runs : header.runs.length < 8 * bitstream.length + 1 := by
    have fewer := length_le_flatMap each
    rw [List.length_append] at inside
    omega
  have lengths := readLengths_reads decodes (Nat.lt_add_of_pos_right (by decide : 0 < 2)) most mostD header.runs valid.runs
    valid.whole ahead.right runs
  have room : sub64 (bitstream.length + 2) 2 = bitstream.length := by
    unfold sub64
    omega
  have start : (⟨List.replicate 288 0, List.replicate 32 0, 0⟩ : Lengths) = .of header.literals [] := by
    unfold Lengths.of
    rw [List.take_nil, List.drop_nil]
    rfl
  have last : header.literalLengths[256]? ≠ some 0 := by
    intro none
    refine valid.last ?_
    rw [List.getD_eq_getElem?_getD, none]
    rfl
  simp only [length_low, Nat.add_assoc, List.length_append, List.drop_zero] at hlit hdist hclen codes lengths inside ⊢
  unfold getTreeInflateDynamic
  rw [room, if_neg (by omega), hlit, ok_bind]
  dsimp only
  rw [hdist, ok_bind]
  dsimp only
  rw [hclen, ok_bind]
  dsimp only
  rw [Nat.sub_add_cancel leastC, Nat.sub_add_cancel leastD, Nat.sub_add_cancel least]
  have none : List.replicate 19 0 = lengthsUpTo header.codeLengths 0 := by simp [lengthsUpTo]
  rw [none, codes, ok_bind]
  dsimp only
  rw [runLengths_eq, built, ok_bind, start, lengths, ok_bind]
  dsimp only
  have bitlen : (Lengths.of header.literals (header.runs.foldl Run.expand [])).bitlen = header.literalLengths := rfl
  have bitlenD : (Lengths.of header.literals (header.runs.foldl Run.expand [])).bitlenD = header.distanceLengths := rfl
  rw [bitlen, bitlenD, if_neg last, builtL, ok_bind, builtD, ok_bind]
  rfl

end Headers

end MPStuBS.PNG
