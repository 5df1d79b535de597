import MPStuBS.Inflate

/-! Whatever is inflated, `uz_inflate` comes to an end, and writes nothing behind its buffer. -/
namespace MPStuBS.PNG

section Outcomes

/-- A function comes to its end with a result like this, or it stops where it reads or for an error. -/
structure Ends {α : Type} (post : α → Prop) (r : Png α) : Prop where
  result : ∀ a, r = .ok a → post a
  stop : ∀ stop, r = .error stop → stop ≠ .endless ∧ stop ≠ .overrun

variable {α β : Type} {post : α → Prop} {post' : β → Prop} {r : Png α} {f : α → Png β}

theorem ends_ok {a : α} (is : post a) : Ends post (.ok a) :=
  ⟨fun _ same => Except.ok.inj same ▸ is, fun _ => nofun⟩

theorem ends_pure {a : α} (is : post a) : Ends post (pure a) := ends_ok is

theorem ends_error {stop : Stop} (finite : stop ≠ .endless) (inside : stop ≠ .overrun) : Ends post (.error stop) :=
  ⟨fun _ => nofun, fun _ same => Except.error.inj same ▸ ⟨finite, inside⟩⟩

theorem ends_malformed : Ends post malformed := ends_error (by decide) (by decide)

theorem Ends.bind (ends : Ends post r) (onward : ∀ a, post a → Ends post' (f a)) : Ends post' (r >>= f) := by
  cases r with
  | error stop =>
    obtain ⟨finite, inside⟩ := ends.stop stop rfl
    exact ends_error finite inside
  | ok a => exact onward a (ends.result a rfl)

theorem Ends.mono {weaker : α → Prop} (ends : Ends post r) (weak : ∀ a, post a → weaker a) : Ends weaker r :=
  ⟨fun a same => weak a (ends.result a same), ends.stop⟩

theorem Ends.unless {c : Prop} [Decidable c] (ends : ¬ c → Ends post r) : Ends post (if c then malformed else r) := by
  split
  · exact ends_malformed
  · exact ends ‹_›

theorem ends_load {γ : Type} (array : List γ) (i : Nat) : Ends (fun a => array[i]? = some a) (load array i) := by
  unfold load
  split
  · exact ends_ok ‹_›
  · exact ends_error (by decide) (by decide)

end Outcomes

section Bits

variable (bitstream : List UInt8)

theorem readBit_ends (bp : Nat) : Ends (fun r => r.2 = bp + 1 ∧ bp < 8 * bitstream.length) (readBit bitstream bp) := by
  refine (ends_load bitstream (bp / 8)).bind fun byte found => ?_
  obtain ⟨inside, -⟩ := List.getElem?_eq_some_iff.mp found
  exact ends_pure ⟨rfl, by omega⟩

/-- What is read is inside the stream, if anything is. -/
def Reads (bp bp' : Nat) : Prop := bp ≤ bp' ∧ (bp ≤ 8 * bitstream.length → bp' ≤ 8 * bitstream.length)

variable {bitstream}

theorem Reads.trans {bp bp' bp'' : Nat} (first : Reads bitstream bp bp') (then' : Reads bitstream bp' bp'') :
    Reads bitstream bp bp'' :=
  ⟨first.1.trans then'.1, fun inside => then'.2 (first.2 inside)⟩

variable (bitstream)

theorem readBitsFrom_ends (n : Nat) : ∀ {i result bp}, Ends (fun r => Reads bitstream bp r.2) (readBitsFrom bitstream n i result bp) := by
  induction n with
  | zero => exact fun {_ _ _} => ends_pure ⟨Nat.le_refl _, id⟩
  | succ n ih =>
    intro i result bp
    refine (readBit_ends bitstream bp).bind ?_
    rintro ⟨bit, bp'⟩ ⟨rfl, inside⟩
    exact ih.mono fun r reads => Reads.trans ⟨Nat.le_succ _, fun _ => inside⟩ reads

theorem readBits_ends (bp n : Nat) : Ends (fun r => Reads bitstream bp r.2) (readBits bitstream bp n) :=
  readBitsFrom_ends bitstream n

theorem decodeFrom_ends (codetree : HuffmanTree) (inlength : Nat) {fuel : Nat} : ∀ {treepos bp}, 0 < fuel →
    8 * bitstream.length < bp + fuel →
      Ends (fun r => bp < r.2 ∧ r.2 ≤ 8 * bitstream.length) (decodeFrom bitstream codetree inlength fuel treepos bp) := by
  induction fuel with
  | zero => exact fun none => absurd none (Nat.lt_irrefl 0)
  | succ fuel ih =>
    intro treepos bp _ enough
    rw [decodeFrom]
    refine Ends.unless fun _ => (readBit_ends bitstream bp).bind ?_
    rintro ⟨bit, bp'⟩ ⟨moved, inside⟩
    dsimp only at moved
    subst moved
    refine (ends_load codetree.tree2d _).bind fun ct _ => ?_
    split
    · exact ends_pure ⟨Nat.lt_succ_self bp, inside⟩
    · refine Ends.unless fun _ => (ih (by omega) (by omega)).mono fun r moves => ?_
      exact ⟨Nat.lt_of_succ_lt moves.1, moves.2⟩

theorem decodeSymbol_ends (bp : Nat) (codetree : HuffmanTree) (inlength : Nat) :
    Ends (fun r => bp < r.2 ∧ r.2 ≤ 8 * bitstream.length) (decodeSymbol bitstream bp codetree inlength) :=
  decodeFrom_ends bitstream codetree inlength (Nat.succ_pos _) (by omega)

end Bits

section Trees

theorem countLengths_ends (lens : List Nat) : ∀ {blcount}, Ends (fun _ => True) (countLengths lens blcount) := by
  induction lens with
  | nil => exact ends_pure trivial
  | cons l rest ih =>
    intro blcount
    rw [countLengths]
    split
    · exact ih
    · exact ends_error (by decide) (by decide)

theorem nextcodes_ends (maxbitlen : Nat) (blcount : Nat → Nat) : Ends (fun _ => True) (nextcodes maxbitlen blcount) := by
  unfold nextcodes
  split
  · exact ends_pure trivial
  · exact ends_error (by decide) (by decide)

theorem tree1d_ends (lens : List Nat) : ∀ {n next}, Ends (fun _ => True) (tree1d n lens next) := by
  induction lens with
  | nil => exact ends_pure trivial
  | cons l rest ih =>
    intro n next
    rw [tree1d]
    split
    · exact ih.bind fun _ _ => ends_pure trivial
    · split
      · exact ih.bind fun _ _ => ends_pure trivial
      · exact ends_error (by decide) (by decide)

theorem fillBits_ends (numcodes n : Nat) (w : List Bool) : ∀ {f}, Ends (fun _ => True) (fillBits numcodes n w f) := by
  induction w with
  | nil => exact ends_pure trivial
  | cons bit rest ih =>
    intro f
    rw [fillBits]
    refine Ends.unless fun _ => (ends_load f.tree2d _).bind fun entry _ => ?_
    split
    · split
      · exact ih
      · exact ih
    · exact ih

theorem fillCodes_ends (numcodes : Nat) (codes : List (Nat × Nat)) : ∀ {n f}, Ends (fun _ => True) (fillCodes numcodes n codes f) := by
  induction codes with
  | nil => exact ends_pure trivial
  | cons code rest ih =>
    intro n f
    obtain ⟨bitlen, code⟩ := code
    exact (fillBits_ends numcodes n _).bind fun _ _ => ih

theorem createLengths_ends (maxbitlen : Nat) (lens : List Nat) : Ends (fun _ => True) (createLengths maxbitlen lens) :=
  (countLengths_ends lens).bind fun _ _ => (nextcodes_ends _ _).bind fun _ _ => (tree1d_ends lens).bind fun _ _ =>
    (fillCodes_ends _ _).bind fun _ _ => ends_pure trivial

end Trees

section Headers

variable (bitstream : List UInt8)

theorem readCodeLengths_ends (hclen : Nat) (order : List Nat) : ∀ {i codelengthcode bp},
    Ends (fun r => Reads bitstream bp r.2) (readCodeLengths bitstream hclen order i codelengthcode bp) := by
  induction order with
  | nil => exact fun {_ _ _} => ends_pure ⟨Nat.le_refl _, id⟩
  | cons symbol rest ih =>
    intro i codelengthcode bp
    rw [readCodeLengths]
    split
    · exact (readBits_ends bitstream _ 3).bind fun _ reads => ih.mono fun _ reads' => reads.trans reads'
    · exact ih

theorem repeat_ends (hlit hdist value n : Nat) : ∀ {l}, Ends (fun _ => True) (Lengths.repeat hlit hdist value n l) := by
  induction n with
  | zero => exact ends_pure trivial
  | succ n ih => exact Ends.unless fun _ => ih

theorem previous_ends (l : Lengths) (hlit : Nat) : Ends (fun _ => True) (l.previous hlit) := by
  unfold Lengths.previous
  split
  · exact (ends_load _ _).mono fun _ _ => trivial
  · exact (ends_load _ _).mono fun _ _ => trivial

theorem readLengths_ends (tree : HuffmanTree) (inlength hlit hdist : Nat) {fuel : Nat} : ∀ {l bp}, 0 < fuel →
    8 * bitstream.length < bp + fuel →
      Ends (fun r => Reads bitstream bp r.2) (readLengths bitstream tree inlength hlit hdist fuel l bp) := by
  induction fuel with
  | zero => exact fun none => absurd none (Nat.lt_irrefl 0)
  | succ fuel ih =>
    intro l bp _ enough
    have onward : ∀ {l bp' bp''}, bp < bp' → bp' ≤ 8 * bitstream.length → Reads bitstream bp' bp'' →
        Ends (fun r => Reads bitstream bp r.2) (readLengths bitstream tree inlength hlit hdist fuel l bp'') := by
      intro l bp' bp'' moved inside reads
      have inside' := reads.2 inside
      refine (ih (by have := reads.1; omega) (by have := reads.1; omega)).mono fun r reads' => ?_
      exact ⟨Nat.le_of_lt moved |>.trans (reads.1.trans reads'.1), fun _ => reads'.2 inside'⟩
    rw [readLengths]
    split
    · exact ends_pure ⟨Nat.le_refl _, id⟩
    · refine (decodeSymbol_ends bitstream bp tree inlength).bind ?_
      rintro ⟨code, bp'⟩ ⟨moved, inside⟩
      have repeats : ∀ {n least value}, Ends (fun r => Reads bitstream bp r.2) (readBits bitstream bp' n >>= fun r =>
          l.repeat hlit hdist value (least + r.1) >>= fun l =>
            readLengths bitstream tree inlength hlit hdist fuel l r.2) := by
        intro n least value
        exact (readBits_ends bitstream _ n).bind fun _ reads => (repeat_ends hlit hdist value _).bind fun _ _ =>
          onward moved inside reads
      dsimp only
      split
      · exact onward moved inside ⟨Nat.le_refl _, id⟩
      split
      · refine Ends.unless fun _ => (readBits_ends bitstream _ 2).bind fun _ reads => ?_
        exact (previous_ends l hlit).bind fun value _ => (repeat_ends hlit hdist value _).bind fun _ _ =>
          onward moved inside reads
      split
      · exact Ends.unless fun _ => repeats
      split
      · exact Ends.unless fun _ => repeats
      · exact ends_malformed

theorem getTreeInflateDynamic_ends (bp inlength : Nat) :
    Ends (fun r => Reads bitstream bp r.2.2) (getTreeInflateDynamic bitstream bp inlength) := by
  unfold getTreeInflateDynamic
  refine Ends.unless fun _ => ?_
  refine (readBits_ends bitstream _ 5).bind fun _ hlit => ?_
  refine (readBits_ends bitstream _ 5).bind fun _ hdist => ?_
  refine (readBits_ends bitstream _ 4).bind fun _ hclen => ?_
  refine (readCodeLengths_ends bitstream _ _).bind fun _ codes => ?_
  refine (createLengths_ends _ _).bind fun tree _ => ?_
  refine (readLengths_ends bitstream tree _ _ _ (Nat.succ_pos _) (by omega)).bind fun _ lengths => ?_
  refine Ends.unless fun _ => (createLengths_ends _ _).bind fun _ _ => (createLengths_ends _ _).bind fun _ _ => ?_
  exact ends_pure ((((hlit.trans hdist).trans hclen).trans codes).trans lengths)

end Headers

section Blocks

variable (bitstream : List UInt8)

theorem put_ends {o : Output} (byte : UInt8) (inside : o.pos < o.out.length) :
    Ends (fun o' => o'.out.length = o.out.length ∧ o'.pos = o.pos + 1) (o.put byte) := by
  unfold Output.put
  rw [if_pos inside]
  exact ends_ok ⟨List.length_set, rfl⟩

theorem copyBackward_ends (start distance n : Nat) : ∀ {backward o}, o.pos + n ≤ o.out.length →
    Ends (fun o' => o'.out.length = o.out.length) (copyBackward start distance n backward o) := by
  induction n with
  | zero => exact fun {_ _} _ => ends_pure rfl
  | succ n ih =>
    intro backward o fits
    refine (ends_load _ _).bind fun byte _ => (put_ends byte (by omega)).bind fun o' put => ?_
    obtain ⟨length, pos⟩ := put
    exact (ih (by omega)).mono fun o'' same => same.trans length

theorem copyStored_ends (n : Nat) : ∀ {p o}, o.pos + n ≤ o.out.length →
    Ends (fun o' => o'.out.length = o.out.length ∧ (n = 0 ∨ p + n ≤ bitstream.length)) (copyStored bitstream n p o) := by
  induction n with
  | zero => exact fun {_ _} _ => ends_pure ⟨rfl, .inl rfl⟩
  | succ n ih =>
    intro p o fits
    refine (ends_load _ _).bind fun byte found => (put_ends byte (by omega)).bind fun o' put => ?_
    obtain ⟨inside, -⟩ := List.getElem?_eq_some_iff.mp found
    obtain ⟨length, pos⟩ := put
    refine (ih (by omega)).mono fun o'' copied => ⟨copied.1.trans length, .inr ?_⟩
    have := copied.2
    omega

theorem inflateSymbols_ends (codetree codetreeD : HuffmanTree) (inlength : Nat) {fuel : Nat} : ∀ {bp o}, 0 < fuel →
    8 * bitstream.length < bp + fuel → Ends (fun r => Reads bitstream bp r.1 ∧ r.2.out.length = o.out.length)
      (inflateSymbols bitstream codetree codetreeD inlength fuel bp o) := by
  induction fuel with
  | zero => exact fun none => absurd none (Nat.lt_irrefl 0)
  | succ fuel ih =>
    intro bp o _ enough
    rw [inflateSymbols]
    refine (decodeSymbol_ends bitstream bp codetree inlength).bind ?_
    rintro ⟨code, bp'⟩ ⟨moved, inside⟩
    have onward : ∀ {bp'' o'}, Reads bitstream bp' bp'' → o'.out.length = o.out.length →
        Ends (fun r => Reads bitstream bp r.1 ∧ r.2.out.length = o.out.length)
          (inflateSymbols bitstream codetree codetreeD inlength fuel bp'' o') := by
      intro bp'' o' reads length
      have inside' := reads.2 inside
      have moved' := Nat.lt_of_lt_of_le moved reads.1
      refine (ih (by omega) (by omega)).mono fun r ends => ⟨⟨moved'.le.trans ends.1.1, fun _ => ends.1.2 inside'⟩, ?_⟩
      exact ends.2.trans length
    dsimp only
    split
    · exact ends_pure ⟨⟨Nat.le_of_lt moved, fun _ => inside⟩, rfl⟩
    split
    · refine Ends.unless fun room => (put_ends _ (Nat.not_le.mp room)).bind fun o' put => ?_
      exact onward ⟨Nat.le_refl _, id⟩ put.1
    split
    · refine (ends_load _ _).bind fun length _ => (ends_load _ _).bind fun numextrabits _ => ?_
      refine Ends.unless fun _ => (readBits_ends bitstream _ _).bind fun extra reads => ?_
      refine (decodeSymbol_ends bitstream _ codetreeD inlength).bind fun codeD reads' => ?_
      refine Ends.unless fun _ => (ends_load _ _).bind fun distance _ => (ends_load _ _).bind fun numextrabitsD _ => ?_
      refine Ends.unless fun _ => (readBits_ends bitstream _ _).bind fun extraD reads'' => ?_
      refine Ends.unless fun room => (copyBackward_ends _ _ _ (Nat.not_le.mp room).le).bind fun o' copied => ?_
      exact onward (reads.trans (Reads.trans ⟨reads'.1.le, fun _ => reads'.2⟩ reads'')) copied
    · exact onward ⟨Nat.le_refl _, id⟩ rfl

theorem inflateHuffman_ends (bp : Nat) (o : Output) (inlength btype : Nat) :
    Ends (fun r => Reads bitstream bp r.1 ∧ r.2.out.length = o.out.length) (inflateHuffman bitstream bp o inlength btype) := by
  have dynamic := getTreeInflateDynamic_ends bitstream bp inlength
  have symbols : ∀ {r : HuffmanTree × HuffmanTree × Nat}, Reads bitstream bp r.2.2 →
      Ends (fun r => Reads bitstream bp r.1 ∧ r.2.out.length = o.out.length)
        (inflateSymbols bitstream r.1 r.2.1 inlength (8 * bitstream.length + 1) r.2.2 o) := fun reads =>
    (inflateSymbols_ends bitstream _ _ _ (Nat.succ_pos _) (by omega)).mono fun r' ends => ⟨reads.trans ends.1, ends.2⟩
  unfold inflateHuffman
  split
  · exact symbols (r := (_, _, bp)) ⟨Nat.le_refl _, id⟩
  · exact dynamic.bind fun r reads => symbols reads

theorem inflateUncompressed_ends (bp : Nat) (o : Output) (inlength : Nat) :
    Ends (fun r => Reads bitstream bp r.1 ∧ r.2.out.length = o.out.length) (inflateUncompressed bitstream bp o inlength) := by
  unfold inflateUncompressed
  refine Ends.unless fun _ => ?_
  refine (ends_load _ _).bind fun _ _ => (ends_load _ _).bind fun _ _ => (ends_load _ _).bind fun _ _ => ?_
  refine (ends_load _ _).bind fun _ found => ?_
  obtain ⟨inside, -⟩ := List.getElem?_eq_some_iff.mp found
  refine Ends.unless fun _ => Ends.unless fun fits => Ends.unless fun _ => ?_
  refine (copyStored_ends bitstream _ (Nat.not_le.mp fits).le).bind fun o' copied => ends_pure ⟨⟨?_, fun _ => ?_⟩, copied.1⟩
  · dsimp only
    omega
  · have := copied.2
    dsimp only
    omega

end Blocks

section Streams

theorem inflateData_ends (bitstream : List UInt8) (insize : Nat) {fuel : Nat} : ∀ {bp o}, 0 < fuel →
    8 * bitstream.length < bp + fuel → Ends (fun o' => o'.out.length = o.out.length) (inflateData bitstream insize fuel bp o) := by
  induction fuel with
  | zero => exact fun none => absurd none (Nat.lt_irrefl 0)
  | succ fuel ih =>
    intro bp o _ enough
    rw [inflateData]
    refine Ends.unless fun _ => (readBit_ends bitstream bp).bind ?_
    rintro ⟨done, bp₁⟩ ⟨moved, -⟩
    refine (readBit_ends bitstream bp₁).bind ?_
    rintro ⟨low, bp₂⟩ ⟨moved', -⟩
    refine (readBit_ends bitstream bp₂).bind ?_
    rintro ⟨high, bp₃⟩ ⟨moved'', inside⟩
    dsimp only at moved moved' moved'' inside ⊢
    have onward : ∀ r : Nat × Output, Reads bitstream bp₃ r.1 ∧ r.2.out.length = o.out.length →
        Ends (fun o' => o'.out.length = o.out.length) (if done = 0 then inflateData bitstream insize fuel r.1 r.2 else pure r.2) := by
      rintro ⟨bp', o'⟩ ⟨reads, length⟩
      have inside' := reads.2 (by omega)
      have further := reads.1
      split
      · exact (ih (by omega) (by omega)).mono fun o'' same => same.trans length
      · exact ends_pure length
    refine Ends.unless fun _ => ?_
    split
    · exact (inflateUncompressed_ends bitstream bp₃ o insize).bind onward
    · exact (inflateHuffman_ends bitstream bp₃ o insize _).bind onward

/-- Whatever the stream and the buffer are, every loop ends, and no byte is written behind the buffer. -/
theorem uzInflate_ends (out stream : List UInt8) : Ends (fun out' => out'.length = out.length) (uzInflate out stream) := by
  unfold uzInflate
  refine Ends.unless fun enough => (ends_load _ _).bind fun cmf _ => (ends_load _ _).bind fun flg _ => ?_
  refine Ends.unless fun _ => Ends.unless fun _ => Ends.unless fun _ => ?_
  exact (inflateData_ends _ _ (by omega) (by rw [List.length_drop]; omega)).bind fun o same => ends_pure same

end Streams

end MPStuBS.PNG
