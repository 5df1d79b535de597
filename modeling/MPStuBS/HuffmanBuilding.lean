import MPStuBS.BitStreams
import Mathlib.Data.Nat.ModEq

/-! The tree that `huffman_tree_create_lengths` builds leads along the word of every symbol to that symbol. -/
namespace MPStuBS.PNG

open PrefixCode

/-- What is at the end of a path. -/
inductive Mark where
  | free
  | symbol (n : Nat)
  | node (k : Nat)
  deriving DecidableEq

def Mark.entry (numcodes : Nat) : Mark → Nat
  | .free => unfilled
  | .symbol n => n
  | .node k => k + numcodes

abbrev Marks := List Bool → Mark

variable {numcodes n k : Nat} {M : Marks} {f : Filling} {p q : List Bool} {b : Bool}

/-- The rows of the array are the nodes of the tree. -/
structure Represents (numcodes : Nat) (M : Marks) (f : Filling) : Prop where
  root : M [] = .node 0
  length : f.tree2d.length = 2 * numcodes
  entry : ∀ p k, M p = .node k → ∀ b : Bool, f.tree2d[2 * k + b.toNat]? = some ((M (p ++ [b])).entry numcodes)
  low : ∀ p k, M p = .node k → k ≤ f.nodefilled
  inj : ∀ p q k, M p = .node k → M q = .node k → p = q
  fresh : ∀ k, f.nodefilled < k → k < numcodes → ∀ b : Bool, f.tree2d[2 * k + b.toNat]? = some unfilled
  closed : ∀ p b, M (p ++ [b]) ≠ .free → ∃ k, M p = .node k
  valid : ∀ p n, M p = .symbol n → n < numcodes
  inside : f.nodefilled < numcodes

theorem slot_inj {j k : Nat} {a b : Bool} (same : 2 * j + a.toNat = 2 * k + b.toNat) : j = k ∧ a = b := by
  cases a <;> cases b <;> simp only [Bool.toNat_false, Bool.toNat_true] at same <;> constructor <;> first | rfl | omega

section Marking

variable (is : Represents numcodes M f) (here : M p = .node k) (free : M (p ++ [b]) = .free)
include is here free

theorem Represents.slot_lt : 2 * k + b.toNat < f.tree2d.length := by
  have low := is.low p k here
  have inside := is.inside
  rw [is.length]
  cases b <;> simp only [Bool.toNat_false, Bool.toNat_true] <;> omega

/-- The free end of a path is marked. -/
theorem Represents.mark (mark : Mark) (nodefilled treepos : Nat) (grows : f.nodefilled ≤ nodefilled)
    (room : nodefilled < numcodes) (symbol : ∀ n, mark = .symbol n → n < numcodes)
    (node : ∀ j, mark = .node j → j = f.nodefilled + 1 ∧ j ≤ nodefilled) :
    Represents numcodes (Function.update M (p ++ [b]) mark)
      ⟨f.tree2d.set (2 * k + b.toNat) (mark.entry numcodes), nodefilled, treepos⟩ := by
  have other : ∀ {q j}, M q = .node j → q ≠ p ++ [b] := by
    rintro q j is' rfl
    rw [free] at is'
    cases is'
  have inside := is.slot_lt here free
  -- the nodes of the larger tree
  have cases_node : ∀ q j, Function.update M (p ++ [b]) mark q = .node j → (q = p ++ [b] ∧ mark = .node j) ∨ M q = .node j := by
    intro q j is'
    by_cases same : q = p ++ [b]
    · subst same
      rw [Function.update_self] at is'
      exact .inl ⟨rfl, is'⟩
    · rw [Function.update_of_ne same] at is'
      exact .inr is'
  refine ⟨?_, ?_, fun q j is' c => ?_, fun q j is' => ?_, fun q q' j is' is'' => ?_, fun j above below c => ?_,
    fun q c marked => ?_, fun q m is' => ?_, room⟩
  · rw [Function.update_of_ne (other is.root)]
    exact is.root
  · rw [List.length_set]
    exact is.length
  · rcases cases_node q j is' with ⟨rfl, isNode⟩ | was
    · obtain ⟨rfl, bound⟩ := node j isNode
      have apart : 2 * k + b.toNat ≠ 2 * (f.nodefilled + 1) + c.toNat := fun same => by
        have low := is.low p k here
        have := (slot_inj same).1
        omega
      have nothing : M ((p ++ [b]) ++ [c]) = .free := by
        by_contra marked
        obtain ⟨j, isNode⟩ := is.closed _ _ marked
        rw [free] at isNode
        cases isNode
      rw [List.getElem?_set_ne apart, is.fresh _ (Nat.lt_succ_self _) (by omega), Function.update_of_ne (by simp), nothing]
      rfl
    · by_cases same : 2 * k + b.toNat = 2 * j + c.toNat
      · obtain ⟨rfl, rfl⟩ := slot_inj same
        obtain rfl := is.inj p q k here was
        rw [List.getElem?_set_self inside, Function.update_self]
      · rw [List.getElem?_set_ne same, is.entry q j was, Function.update_of_ne]
        intro eq
        obtain ⟨rfl, tail⟩ := List.append_inj' eq rfl
        cases tail
        cases here.symm.trans was
        exact same rfl
  · rcases cases_node q j is' with ⟨rfl, isNode⟩ | is'
    · exact (node j isNode).2
    · exact (is.low q j is').trans grows
  · rcases cases_node q j is' with ⟨rfl, isNode⟩ | is'
    · rcases cases_node q' j is'' with ⟨rfl, -⟩ | is''
      · rfl
      · have low := is.low q' j is''
        have := (node j isNode).1
        omega
    · rcases cases_node q' j is'' with ⟨rfl, isNode⟩ | is''
      · have low := is.low q j is'
        have := (node j isNode).1
        omega
      · exact is.inj q q' j is' is''
  · have apart : 2 * k + b.toNat ≠ 2 * j + c.toNat := fun same => by
      have low := is.low p k here
      have := (slot_inj same).1
      dsimp only at above
      omega
    rw [List.getElem?_set_ne apart]
    exact is.fresh j (Nat.lt_of_le_of_lt grows above) below c
  · have upper : ∃ j, M q = .node j := by
      by_cases same : q ++ [c] = p ++ [b]
      · obtain ⟨rfl, -⟩ := List.append_inj' same rfl
        exact ⟨k, here⟩
      · rw [Function.update_of_ne same] at marked
        exact is.closed q c marked
    obtain ⟨j, isNode⟩ := upper
    refine ⟨j, ?_⟩
    rw [Function.update_of_ne (other isNode)]
    exact isNode
  · by_cases same : q = p ++ [b]
    · subst same
      rw [Function.update_self] at is'
      exact symbol m is'
    · rw [Function.update_of_ne same] at is'
      exact is.valid q m is'

end Marking

/-- A code that the array has room for. -/
structure Buildable (numcodes : Nat) (symbols : Finset Nat) (word : Nat → List Bool) : Prop where
  free : ∀ m ∈ symbols, ∀ n ∈ symbols, word m <+: word n → m = n
  small : ∀ n ∈ symbols, n < numcodes
  nonempty : ∀ n ∈ symbols, word n ≠ []
  room : (stems (symbols.image word)).card < numcodes
  most : 2 ≤ numcodes ∧ numcodes ≤ 288

/-- The words of these symbols are in the tree, and nothing else is. -/
structure Filled (numcodes : Nat) (symbols : Finset Nat) (word : Nat → List Bool) (known : Nat → Prop) (M : Marks)
    (f : Filling) : Prop extends Represents numcodes M f where
  sound : ∀ p n, M p = .symbol n → n ∈ symbols ∧ word n = p ∧ known n
  stem : ∀ p k, M p = .node k → p = [] ∨ p ∈ stems (symbols.image word)
  count : ∃ nodes : Finset (List Bool), (∀ p, p ∈ nodes ↔ ∃ k, M p = .node k) ∧ nodes.card = f.nodefilled + 1
  complete : ∀ n ∈ symbols, known n → M (word n) = .symbol n

section Filling

variable {symbols : Finset Nat} {word : Nat → List Bool} {known : Nat → Prop} (code : Buildable numcodes symbols word)
include code

theorem Buildable.nil_stem (member : n ∈ symbols) : [] ∈ stems (symbols.image word) :=
  mem_stems.mpr ⟨word n, Finset.mem_image_of_mem word member, List.nil_prefix, (code.nonempty n member).symm⟩

theorem Buildable.word_no_stem (member : n ∈ symbols) : word n ∉ stems (symbols.image word) := by
  intro stem
  obtain ⟨w, inside, starts, other⟩ := mem_stems.mp stem
  obtain ⟨m, is, rfl⟩ := Finset.mem_image.mp inside
  exact other (congrArg word (code.free n member m is starts))

/-- There are not more nodes than stems. -/
theorem Filled.room (filled : Filled numcodes symbols word known M f) (member : n ∈ symbols) :
    f.nodefilled + 1 ≤ (stems (symbols.image word)).card := by
  obtain ⟨nodes, is, count⟩ := filled.count
  rw [← count]
  refine Finset.card_le_card fun p inside => ?_
  obtain ⟨k, isNode⟩ := (is p).mp inside
  rcases filled.stem p k isNode with rfl | stem
  · exact code.nil_stem member
  · exact stem

/-- The last bit of a word is marked with its symbol. -/
theorem Filled.symbol (member : n ∈ symbols) (whole : word n = p ++ [b]) (here : M p = .node k) (marked : M (p ++ [b]) = .free)
    (filled : Filled numcodes symbols word known M f) :
    Filled numcodes symbols word (fun m => m = n ∨ known m) (Function.update M (p ++ [b]) (.symbol n))
      ⟨f.tree2d.set (2 * k + b.toNat) n, f.nodefilled, 0⟩ := by
  have represents := filled.mark here marked (.symbol n) f.nodefilled 0 (Nat.le_refl _) filled.inside
    (by rintro m ⟨⟩; exact code.small n member) (by rintro j ⟨⟩)
  refine ⟨represents, fun q m is => ?_, fun q j is => ?_, ?_, fun m inside isKnown => ?_⟩
  · by_cases same : q = p ++ [b]
    · subst same
      rw [Function.update_self] at is
      cases is
      exact ⟨member, whole, .inl rfl⟩
    · rw [Function.update_of_ne same] at is
      obtain ⟨inside, is', isKnown⟩ := filled.sound q m is
      exact ⟨inside, is', .inr isKnown⟩
  · by_cases same : q = p ++ [b]
    · subst same
      rw [Function.update_self] at is
      cases is
    · rw [Function.update_of_ne same] at is
      exact filled.stem q j is
  · obtain ⟨nodes, is, count⟩ := filled.count
    refine ⟨nodes, fun q => (is q).trans (exists_congr fun j => ?_), count⟩
    by_cases same : q = p ++ [b]
    · subst same
      rw [Function.update_self, marked]
      simp
    · rw [Function.update_of_ne same]
  · by_cases same : m = n
    · rw [same, whole, Function.update_self]
    · rw [Function.update_of_ne]
      · exact filled.complete m inside (isKnown.resolve_left same)
      · rw [← whole]
        exact fun eq => same (code.free m inside n member (eq ▸ List.prefix_rfl))

/-- There is room for one more node, as long as it belongs to a word. -/
theorem Filled.fewer (member : n ∈ symbols) (marked : M p = .free) (stem : p ∈ stems (symbols.image word))
    (filled : Filled numcodes symbols word known M f) : f.nodefilled + 1 < (stems (symbols.image word)).card := by
  obtain ⟨nodes, is, count⟩ := filled.count
  have fewer : (insert p nodes).card ≤ (stems (symbols.image word)).card := by
    refine Finset.card_le_card fun q inside => ?_
    rcases Finset.mem_insert.mp inside with rfl | inside
    · exact stem
    obtain ⟨j, isNode⟩ := (is q).mp inside
    rcases filled.stem q j isNode with rfl | isStem
    · exact code.nil_stem member
    · exact isStem
  rw [Finset.card_insert_of_notMem (by rw [is, marked]; simp), count] at fewer
  omega

/-- A bit that others follow is marked with a new node. -/
theorem Filled.node (member : n ∈ symbols) (stem : p ++ [b] ∈ stems (symbols.image word)) (here : M p = .node k)
    (marked : M (p ++ [b]) = .free) (filled : Filled numcodes symbols word known M f) :
    Filled numcodes symbols word known (Function.update M (p ++ [b]) (.node (f.nodefilled + 1)))
      ⟨f.tree2d.set (2 * k + b.toNat) (f.nodefilled + 1 + numcodes), f.nodefilled + 1, f.nodefilled + 1⟩ := by
  have fewer := filled.fewer code member marked stem
  have represents := filled.mark here marked (.node (f.nodefilled + 1)) (f.nodefilled + 1) (f.nodefilled + 1)
    (Nat.le_succ _) (Nat.lt_trans fewer code.room) (by rintro m ⟨⟩) (by rintro j ⟨⟩; exact ⟨rfl, Nat.le_refl _⟩)
  refine ⟨represents, fun q m is => ?_, fun q j is => ?_, ?_, fun m inside isKnown => ?_⟩
  · by_cases same : q = p ++ [b]
    · subst same
      rw [Function.update_self] at is
      cases is
    · rw [Function.update_of_ne same] at is
      exact filled.sound q m is
  · by_cases same : q = p ++ [b]
    · exact .inr (same ▸ stem)
    · rw [Function.update_of_ne same] at is
      exact filled.stem q j is
  · obtain ⟨nodes, is, count⟩ := filled.count
    refine ⟨insert (p ++ [b]) nodes, fun q => ?_, ?_⟩
    · rw [Finset.mem_insert]
      by_cases same : q = p ++ [b]
      · subst same
        simp
      · rw [Function.update_of_ne same, is]
        simp [same]
    · rw [Finset.card_insert_of_notMem (by rw [is, marked]; simp), count]
  · have isMarked := filled.complete m inside isKnown
    rw [Function.update_of_ne]
    · exact isMarked
    · intro eq
      rw [eq, marked] at isMarked
      cases isMarked

/-- The rest of a word is put into the tree. -/
theorem Filled.fillBits (member : n ∈ symbols) (unknown : ¬ known n) (rest : List Bool) : ∀ {p M f}, rest ≠ [] →
    word n = p ++ rest → M p = .node f.treepos → Filled numcodes symbols word known M f → ∃ f' M',
      fillBits numcodes n rest f = .ok f' ∧ f'.treepos = 0 ∧
        Filled numcodes symbols word (fun m => m = n ∨ known m) M' f' := by
  induction rest with
  | nil => exact fun some => absurd rfl some
  | cons b rest ih =>
    intro p M f _ whole here filled
    obtain ⟨most, few⟩ := code.most
    have room := filled.room code member
    have stems := code.room
    have low := filled.low p _ here
    have entry := filled.entry p _ here b
    have bound : ¬ sub32 numcodes 2 < f.treepos := by
      unfold sub32
      omega
    have onward : word n = (p ++ [b]) ++ rest := by rw [whole, List.append_assoc]; rfl
    have stem : rest ≠ [] → p ++ [b] ∈ PrefixCode.stems (symbols.image word) := by
      intro more
      refine mem_stems.mpr ⟨word n, Finset.mem_image_of_mem word member, ⟨rest, onward.symm⟩, fun same => more ?_⟩
      rwa [onward, List.self_eq_append_right] at same
    unfold PNG.fillBits
    rw [if_neg bound]
    dsimp only
    rw [load, entry]
    dsimp only
    rw [ok_bind]
    cases marked : M (p ++ [b]) with
    | free =>
      rw [if_pos (show Mark.entry numcodes .free = unfilled from rfl)]
      split
      · rename_i last
        subst last
        rw [List.append_nil] at onward
        exact ⟨_, _, rfl, rfl, filled.symbol code member onward here marked⟩
      · rename_i more
        exact ih more onward (Function.update_self _ _ _) (filled.node code member (stem more) here marked)
    | symbol m =>
      obtain ⟨inside, is, isKnown⟩ := filled.sound _ m marked
      have same := code.free m inside n member ⟨rest, by rw [is, onward]⟩
      exact absurd (same ▸ isKnown) unknown
    | node j =>
      have more : rest ≠ [] := by
        rintro rfl
        rw [List.append_nil] at onward
        rcases filled.stem _ j marked with empty | isStem
        · simp at empty
        · exact code.word_no_stem member (onward ▸ isStem)
      have below := filled.low _ j marked
      have inside := filled.inside
      have moved : sub32 (j + numcodes) numcodes = j := by
        unfold sub32
        omega
      have present : ¬ Mark.entry numcodes (.node j) = unfilled := show ¬ j + numcodes = 32767 by omega
      rw [if_neg present]
      dsimp only [Mark.entry]
      rw [moved]
      exact ih more onward marked ⟨⟨filled.root, filled.length, filled.entry, filled.low, filled.inj, filled.fresh, filled.closed,
        filled.valid, filled.inside⟩, filled.sound, filled.stem, filled.count, filled.complete⟩

/-- The symbols from `n` on are put into the tree. -/
theorem Filled.fillCodes (codes : List (Nat × Nat)) : ∀ {n M f}, f.treepos = 0 →
    Filled numcodes symbols word (· < n) M f → (∀ i l c, codes[i]? = some (l, c) →
      (n + i ∈ symbols → bits l c = word (n + i)) ∧ (n + i ∉ symbols → l = 0)) →
    ∃ f' M', fillCodes numcodes n codes f = .ok f' ∧ Filled numcodes symbols word (· < n + codes.length) M' f' := by
  induction codes with
  | nil => exact fun _ filled _ => ⟨_, _, rfl, filled⟩
  | cons first codes ih =>
    rintro n M f start filled is
    obtain ⟨l, c⟩ := first
    have later : ∀ i l c, codes[i]? = some (l, c) →
        (n + 1 + i ∈ symbols → bits l c = word (n + 1 + i)) ∧ (n + 1 + i ∉ symbols → l = 0) := by
      intro i l c found
      rw [Nat.add_assoc, Nat.add_comm 1 i]
      exact is (i + 1) l c found
    obtain ⟨inside, outside⟩ := is 0 l c rfl
    have step : ∃ f' M', PNG.fillBits numcodes n (bits l c) f = .ok f' ∧ f'.treepos = 0 ∧
        Filled numcodes symbols word (· < n + 1) M' f' := by
      by_cases member : n ∈ symbols
      · have root : M [] = .node f.treepos := start ▸ filled.root
        obtain ⟨f', M', filled', start', ok⟩ := @Filled.fillBits numcodes n symbols word (· < n) code member
          (Nat.lt_irrefl n) (word n) _ _ _ (code.nonempty n member) rfl root filled
        refine ⟨f', M', (inside member).symm ▸ filled', start', ⟨ok.toRepresents, fun q m marked => ?_, ok.stem, ok.count,
          fun m used early => ok.complete m used (by omega)⟩⟩
        obtain ⟨used, same, early⟩ := ok.sound q m marked
        exact ⟨used, same, by omega⟩
      · obtain rfl := outside member
        refine ⟨f, M, rfl, start, ⟨filled.toRepresents, fun q m marked => ?_, filled.stem, filled.count,
          fun m used early => filled.complete m used ?_⟩⟩
        · obtain ⟨used, same, early⟩ := filled.sound q m marked
          exact ⟨used, same, Nat.lt_succ_of_lt early⟩
        · have other : m ≠ n := fun same => member (same ▸ used)
          omega
    obtain ⟨f', M', filledBits, start', filled'⟩ := step
    obtain ⟨f'', M'', rest, filled''⟩ := ih start' filled' later
    refine ⟨f'', M'', ?_, ?_⟩
    · rw [PNG.fillCodes, filledBits, ok_bind]
      exact rest
    · rw [List.length_cons, Nat.add_comm codes.length 1, ← Nat.add_assoc]
      exact filled''

end Filling

section Decoding

/-- The symbol that a word leads to. -/
def HuffmanTree.walk (tree : HuffmanTree) : Nat → List Bool → Option Nat
  | _, [] => none
  | k, b :: rest =>
    match tree.tree2d[2 * k + b.toNat]? with
    | none => none
    | some ct =>
      if ct < tree.numcodes then if rest = [] then some ct else none
      else if tree.numcodes ≤ ct - tree.numcodes then none
      else tree.walk (ct - tree.numcodes) rest

/-- The symbol is read whose word comes next. -/
theorem walk_reads {tree : HuffmanTree} {bitstream : List UInt8} {inlength : Nat} (room : bitstream.length ≤ inlength)
    (w : List Bool) : ∀ {k bp fuel}, tree.walk k w = some n → Ahead bitstream bp w → w.length ≤ fuel →
      decodeFrom bitstream tree inlength fuel k bp = .ok (n, bp + w.length) := by
  induction w with
  | nil => exact fun walked => by cases walked
  | cons b rest ih =>
    rintro k bp (_ | fuel) walked ahead enough
    · cases enough
    have inside := ahead.inside (List.cons_ne_nil b rest)
    rw [List.length_cons] at inside enough ⊢
    unfold HuffmanTree.walk at walked
    unfold decodeFrom load
    rw [if_neg (by omega), ahead.readBit, ok_bind]
    dsimp only
    cases found : tree.tree2d[2 * k + b.toNat]? with
    | none =>
      rw [found] at walked
      cases walked
    | some ct =>
      rw [found] at walked
      dsimp only at walked ⊢
      rw [ok_bind]
      by_cases symbol : ct < tree.numcodes
      · rw [if_pos symbol] at walked ⊢
        split at walked
        · rename_i last
          subst last
          cases walked
          rfl
        · cases walked
      · rw [if_neg symbol] at walked ⊢
        split at walked
        · cases walked
        · rename_i node
          rw [if_neg node, ih walked ahead.tail (by omega), Nat.add_assoc, Nat.add_comm 1]

theorem walk_decodes {tree : HuffmanTree} {w : List Bool} (walked : tree.walk 0 w = some n) {bitstream : List UInt8}
    {bp inlength : Nat} (room : bitstream.length ≤ inlength) (ahead : Ahead bitstream bp w) :
    decodeSymbol bitstream bp tree inlength = .ok (n, bp + w.length) := by
  have some : w ≠ [] := by
    rintro rfl
    cases walked
  have enough := ahead.inside some
  exact walk_reads room w walked ahead (by omega)

/-- What is at the end of a path has nodes on the way. -/
theorem Represents.upward (is : Represents numcodes M f) (rest : List Bool) : ∀ {p}, rest ≠ [] → M (p ++ rest) ≠ .free →
    ∃ k, M p = .node k := by
  induction rest with
  | nil => exact fun some => absurd rfl some
  | cons b rest ih =>
    intro p _ marked
    by_cases last : rest = []
    · subst last
      exact is.closed p b marked
    · rw [List.append_cons] at marked
      obtain ⟨k, isNode⟩ := ih last marked
      exact is.closed p b (by rw [isNode]; simp)

/-- The array when the marks of free entries are removed. -/
def Filling.finished (f : Filling) : List Nat := f.tree2d.map fun entry => if entry = unfilled then 0 else entry

theorem Represents.walks {tree : HuffmanTree} (is : Represents tree.numcodes M f) (few : tree.numcodes ≤ 288)
    (array : tree.tree2d = f.finished) (rest : List Bool) : ∀ {p k}, rest ≠ [] → M p = .node k →
      M (p ++ rest) = .symbol n → tree.walk k rest = some n := by
  induction rest with
  | nil => exact fun some => absurd rfl some
  | cons b rest ih =>
    intro p k _ here marked
    have entry := is.entry p k here b
    have found : ∀ {e}, M (p ++ [b]) = e → ¬ e.entry tree.numcodes = unfilled →
        tree.tree2d[2 * k + b.toNat]? = some (e.entry tree.numcodes) := by
      intro e same present
      rw [array, Filling.finished, List.getElem?_map, entry, same, Option.map_some, if_neg present]
    unfold HuffmanTree.walk
    by_cases last : rest = []
    · subst last
      have valid := is.valid _ n marked
      rw [found marked (show ¬ n = 32767 by omega)]
      exact (if_pos valid).trans (if_pos rfl)
    · rw [List.append_cons] at marked
      obtain ⟨j, isNode⟩ := is.upward rest last (by rw [marked]; simp)
      have low := is.low _ j isNode
      have bound := is.inside
      have value : Mark.entry tree.numcodes (.node j) = j + tree.numcodes := rfl
      rw [found isNode (show ¬ j + tree.numcodes = 32767 by omega), value]
      dsimp only
      rw [if_neg (Nat.not_lt.mpr (Nat.le_add_left _ _)), Nat.add_sub_cancel, if_neg (by omega)]
      exact ih last isNode marked

end Decoding

section Codes

/-- Only the lowest bits of a number count. -/
theorem bits_congr {l a b : Nat} (same : a ≡ b [MOD 2 ^ l]) : bits l a = bits l b := by
  refine List.map_congr_left fun i inside => ?_
  have low := Nat.testBit_mod_two_pow a l (l - 1 - i)
  have low' := Nat.testBit_mod_two_pow b l (l - 1 - i)
  have less : l - 1 - i < l := by
    have := List.mem_range.mp inside
    omega
  simp only [less, decide_true, Bool.true_and] at low low'
  rw [← low, ← low', same]

theorem countLengths_counts (lens : List Nat) : ∀ {blcount : Nat → Nat}, (∀ l ∈ lens, l < 15) →
    countLengths lens blcount = .ok fun l => blcount l + lens.count l := by
  induction lens with
  | nil => exact fun _ => rfl
  | cons first rest ih =>
    intro blcount short
    rw [countLengths, if_pos (show first < maxBitLength from short first (.head _)), ih fun l member => short l (.tail _ member)]
    refine congrArg Except.ok (funext fun l => ?_)
    by_cases here : l = first
    · subst here
      rw [Function.update_self, List.count_cons_self]
      omega
    · rw [Function.update_of_ne here, List.count_cons_of_ne (Ne.symm here)]

theorem nextcode_modEq (blcount : Nat → Nat) (bits : Nat) :
    nextcode blcount bits ≡ ∑ l ∈ Finset.range bits, blcount l * 2 ^ (bits - l) [MOD 2 ^ 32] := by
  induction bits with
  | zero => rfl
  | succ bits ih =>
    rw [nextcode, Finset.sum_range_succ, Nat.add_sub_cancel_left, Nat.pow_one]
    refine (Nat.mod_modEq _ _).trans ?_
    have doubled : ∑ l ∈ Finset.range bits, blcount l * 2 ^ (bits + 1 - l) =
        (∑ l ∈ Finset.range bits, blcount l * 2 ^ (bits - l)) * 2 := by
      rw [Finset.sum_mul]
      refine Finset.sum_congr rfl fun l inside => ?_
      have less := Finset.mem_range.mp inside
      rw [Nat.succ_sub (by omega), Nat.pow_succ, Nat.mul_assoc]
    rw [doubled, Nat.add_mul]
    exact (ih.mul_right 2).add_right _

/-- The codes that `tree1d` finds. -/
def codesFrom : List Nat → (Nat → Nat) → List Nat
  | [], _ => []
  | l :: rest, next =>
    if l = 0 then 0 :: codesFrom rest next
    else next l :: codesFrom rest (Function.update next l ((next l + 1) % 2 ^ 32))

theorem tree1d_ok (lens : List Nat) : ∀ {n next}, (∀ i l, lens[i]? = some l → l ≠ 0 → n + i < 288) →
    tree1d n lens next = .ok (codesFrom lens next) := by
  induction lens with
  | nil => exact fun _ => rfl
  | cons l rest ih =>
    intro n next few
    have later : ∀ i l, rest[i]? = some l → l ≠ 0 → n + 1 + i < 288 := fun i l found isUsed => by
      have inside := few (i + 1) l found isUsed
      omega
    rw [tree1d, codesFrom]
    split
    · rw [ih later]
      rfl
    · rename_i isUsed
      rw [if_pos (show n < maxSymbols from few 0 l rfl isUsed), ih later]
      rfl

/-- A code counts on from that of the first symbol with its length. -/
theorem codesFrom_modEq (lens : List Nat) : ∀ {next : Nat → Nat} {i l}, lens[i]? = some l → l ≠ 0 →
    ∃ c, (codesFrom lens next)[i]? = some c ∧ c ≡ next l + (lens.take i).count l [MOD 2 ^ 32] := by
  induction lens with
  | nil => simp
  | cons first rest ih =>
    rintro next (_ | i) l found used
    · obtain rfl : first = l := by simpa using found
      rw [codesFrom, if_neg used]
      exact ⟨_, rfl, by simp; rfl⟩
    · rw [List.getElem?_cons_succ] at found
      rw [codesFrom, List.take_succ_cons]
      split
      · rename_i unused
        obtain ⟨c, is, same⟩ := @ih next i l found used
        exact ⟨c, is, by rwa [List.count_cons_of_ne (by omega)]⟩
      · obtain ⟨c, is, same⟩ := @ih (Function.update next first ((next first + 1) % 2 ^ 32)) i l found used
        refine ⟨c, is, same.trans ?_⟩
        by_cases here : l = first
        · subst here
          rw [Function.update_self, List.count_cons_self, ← Nat.add_assoc, Nat.add_right_comm]
          exact (Nat.mod_modEq _ _).add_right _
        · rw [Function.update_of_ne here, List.count_cons_of_ne (Ne.symm here)]

theorem sum_getD (g : Nat → Nat) (lens : List Nat) : ∑ m ∈ Finset.range lens.length, g (lens.getD m 0) = (lens.map g).sum := by
  induction lens with
  | nil => rfl
  | cons first rest ih =>
    rw [List.length_cons, Finset.sum_range_succ', List.map_cons, List.sum_cons, Nat.add_comm]
    simpa using ih

/-- Summing over the list is summing over the lengths that occur. -/
theorem sum_count (g : Nat → Nat) (bound : Nat) (lens : List Nat) (zero : ∀ l, bound ≤ l → g l = 0) :
    (lens.map g).sum = ∑ l ∈ Finset.range bound, lens.count l * g l := by
  induction lens with
  | nil => simp
  | cons first rest ih =>
    rw [List.map_cons, List.sum_cons, ih]
    simp only [List.count_cons, beq_iff_eq, Nat.add_mul, Finset.sum_add_distrib, ite_mul, Nat.one_mul, Nat.zero_mul]
    rw [Finset.sum_ite_eq, Nat.add_comm]
    split
    · rfl
    · rename_i outside
      rw [zero first (by simpa using outside)]

/-- The length of the word of a symbol. -/
def lenOf (lens : List Nat) (n : Nat) : Nat := lens.getD n 0

theorem sum_map_ite (L : Nat) (lens : List Nat) : (lens.map fun l => if l = L then 1 else 0).sum = lens.count L := by
  induction lens with
  | nil => rfl
  | cons first rest ih =>
    rw [List.map_cons, List.sum_cons, ih, List.count_cons]
    simp only [beq_iff_eq, Nat.add_comm]

/-- The symbols before one that have words of some length. -/
theorem count_take (lens : List Nat) (L : Nat) {n : Nat} (inside : n < lens.length) :
    (∑ m ∈ Finset.range lens.length, if lenOf lens m = L ∧ m < n then 1 else 0) = (lens.take n).count L := by
  have length : (lens.take n).length = n := List.length_take_of_le (Nat.le_of_lt inside)
  rw [← sum_map_ite, ← sum_getD, length]
  rw [← Finset.sum_subset (Finset.range_mono (Nat.le_of_lt inside))]
  · refine Finset.sum_congr rfl fun m member => ?_
    have less := Finset.mem_range.mp member
    unfold lenOf
    simp only [List.getD_eq_getElem?_getD, List.getElem?_take_of_lt less, less, and_true]
  · intro m _ outside
    rw [if_neg fun both => outside (Finset.mem_range.mpr both.2)]

/-- The canonical code, with the words of each length counted. -/
theorem code_eq (lens : List Nat) {n : Nat} (inside : n < lens.length) (isUsed : lenOf lens n ≠ 0) :
    code (lenOf lens) lens.length n =
      (∑ l ∈ Finset.range (lenOf lens n), if l = 0 then 0 else lens.count l * 2 ^ (lenOf lens n - l)) +
        (lens.take n).count (lenOf lens n) := by
  generalize is : lenOf lens n = L at *
  have shorter := sum_count (fun l => if l = 0 ∨ L ≤ l then 0 else 2 ^ (L - l)) L lens fun l large => if_pos (.inr large)
  rw [← sum_getD] at shorter
  rw [← count_take lens L inside]
  have split : (∑ l ∈ Finset.range L, if l = 0 then 0 else lens.count l * 2 ^ (L - l)) =
      ∑ l ∈ Finset.range L, lens.count l * if l = 0 ∨ L ≤ l then 0 else 2 ^ (L - l) := by
    refine Finset.sum_congr rfl fun l member => ?_
    have less := Finset.mem_range.mp member
    by_cases zero : l = 0
    · rw [if_pos zero, if_pos (.inl zero), Nat.mul_zero]
    · rw [if_neg zero, if_neg (by omega)]
  rw [split, ← shorter, ← Finset.sum_add_distrib]
  unfold code used
  rw [Finset.sum_filter, Finset.sum_filter]
  refine Finset.sum_congr rfl fun m _ => ?_
  change _ = (if lenOf lens m = 0 ∨ L ≤ lenOf lens m then 0 else 2 ^ (L - lenOf lens m)) + _
  have before : Before (lenOf lens) m n ↔ lenOf lens m < L ∨ lenOf lens m = L ∧ m < n := by
    unfold Before
    rw [is]
  simp only [before, is]
  by_cases unused : lenOf lens m = 0
  · rw [if_neg (not_not_intro unused), if_pos (.inl unused), if_neg (by omega), Nat.add_zero]
  rw [if_pos unused]
  rcases Nat.lt_trichotomy (lenOf lens m) L with less | same | more
  · rw [if_pos (.inl less), if_neg (by omega), if_neg (by omega), Nat.add_zero]
  · by_cases first : m < n
    · rw [if_pos (.inr ⟨same, first⟩), if_pos (by omega), if_pos ⟨same, first⟩, same, Nat.sub_self, Nat.pow_zero]
    · rw [if_neg (by omega), if_pos (by omega), if_neg (by omega), Nat.add_zero]
  · rw [if_neg (by omega), if_pos (by omega), if_neg (by omega), Nat.add_zero]

/-- The bits of the code of a symbol are its word. -/
theorem bits_code (lens : List Nat) {n c : Nat} (inside : n < lens.length) (isUsed : lenOf lens n ≠ 0)
    (few : lenOf lens n ≤ 32) (is : c ≡ nextcode (fun l => lens.count l) (lenOf lens n) +
      (lens.take n).count (lenOf lens n) [MOD 2 ^ 32]) :
    bits (lenOf lens n) c = word (lenOf lens) lens.length n := by
  have divides : 2 ^ lenOf lens n ∣ 2 ^ 32 := Nat.pow_dvd_pow 2 few
  refine bits_congr (((is.of_dvd divides).trans ?_))
  rw [code_eq lens inside isUsed]
  refine Nat.ModEq.add_right _ (((nextcode_modEq _ _).of_dvd divides).trans ?_)
  obtain ⟨L, succ⟩ := Nat.exists_eq_succ_of_ne_zero isUsed
  rw [succ, Finset.sum_range_succ', Finset.sum_range_succ', Nat.sub_zero]
  simp only [if_true, Nat.add_zero, Nat.succ_ne_zero, if_false]
  exact Nat.modEq_iff_dvd.mpr (by simp)

end Codes

theorem length_codesFrom (lens : List Nat) : ∀ next, (codesFrom lens next).length = lens.length := by
  induction lens with
  | nil => exact fun _ => rfl
  | cons first rest ih =>
    intro next
    rw [codesFrom]
    split <;> rw [List.length_cons, List.length_cons, ih]

theorem represents_replicate (numcodes : Nat) (some : 0 < numcodes) :
    Represents numcodes (fun p => if p = [] then .node 0 else .free) ⟨List.replicate (2 * numcodes) unfilled, 0, 0⟩ := by
  have node : ∀ (p : List Bool) k, (if p = [] then Mark.node 0 else .free) = .node k → p = [] ∧ k = 0 := by
    intro p k is
    split at is
    · cases is
      exact ⟨by assumption, rfl⟩
    · cases is
  have row : ∀ k < numcodes, ∀ b : Bool, (List.replicate (2 * numcodes) unfilled)[2 * k + b.toNat]? = .some unfilled := by
    intro k inside b
    refine List.getElem?_replicate_of_lt ?_
    cases b <;> simp only [Bool.toNat_false, Bool.toNat_true] <;> omega
  refine ⟨rfl, by simp, fun p k is b => ?_, fun p k is => ?_, fun p q k is is' => ?_, fun k _ inside b => row k inside b,
    fun p b marked => ?_, fun p n is => ?_, some⟩
  · obtain ⟨rfl, rfl⟩ := node p k is
    exact row 0 some b
  · exact Nat.le_of_eq (node p k is).2
  · rw [(node p k is).1, (node q k is').1]
  · simp at marked
  · split at is <;> cases is

/-- The tree for these lengths leads along the canonical word of every symbol. -/
theorem createLengths_leads (maxbitlen : Nat) (lens : List Nat) (bound : maxbitlen ≤ 15) (short : ∀ l ∈ lens, l < 15 ∧ l ≤ maxbitlen)
    (code : Buildable lens.length (used (lenOf lens) lens.length) (word (lenOf lens) lens.length)) :
    ∃ tree, createLengths maxbitlen lens = .ok tree ∧ ∀ n ∈ used (lenOf lens) lens.length,
      tree.walk 0 (word (lenOf lens) lens.length n) = some n := by
  obtain ⟨most, few⟩ := code.most
  have lens_short : ∀ {n l}, lens[n]? = some l → lenOf lens n = l ∧ l < 15 ∧ l ≤ maxbitlen := by
    intro n l found
    have bounds := short l (List.mem_of_getElem? found)
    unfold lenOf
    rw [List.getD_eq_getElem?_getD, found]
    exact ⟨rfl, bounds⟩
  have counted := @countLengths_counts lens (fun _ => 0) fun l member => (short l member).1
  simp only [Nat.zero_add] at counted
  have root : Filled lens.length (used (lenOf lens) lens.length) (word (lenOf lens) lens.length) (· < 0)
      (fun p => if p = [] then .node 0 else .free) ⟨List.replicate (2 * lens.length) unfilled, 0, 0⟩ := by
    refine ⟨represents_replicate _ (by omega), fun p n is => ?_, fun p k is => ?_, ⟨{[]}, fun p => ?_, rfl⟩,
      fun n _ early => ?_⟩
    · split at is <;> cases is
    · split at is
      · exact .inl (by assumption)
      · cases is
    · by_cases empty : p = [] <;> simp [empty]
    · cases early
  have found := @tree1d_ok lens 0 (fun bits => if bits ≤ maxbitlen then nextcode (fun l => lens.count l) bits else 0)
    fun i l is _ => by
      have inside := (List.getElem?_eq_some_iff.mp is).1
      omega
  generalize codesAre : (codesFrom lens fun bits => if bits ≤ maxbitlen then nextcode (fun l => lens.count l) bits else 0) = codes at found
  have length : (lens.zip codes).length = lens.length := by
    rw [List.length_zip, ← codesAre, length_codesFrom, Nat.min_self]
  obtain ⟨f, M, filled, is⟩ := root.fillCodes code (lens.zip codes) rfl fun i l c found => by
    obtain ⟨foundLen, foundCode⟩ := List.getElem?_zip_eq_some.mp found
    obtain ⟨rfl, low, bounded⟩ := lens_short foundLen
    have inside := (List.getElem?_eq_some_iff.mp foundLen).1
    rw [Nat.zero_add]
    constructor
    · intro member
      have isUsed := (Finset.mem_filter.mp member).2
      obtain ⟨c', is, same⟩ := @codesFrom_modEq lens
        (fun bits => if bits ≤ maxbitlen then nextcode (fun l => lens.count l) bits else 0) _ _ foundLen isUsed
      rw [codesAre, foundCode] at is
      cases is
      rw [if_pos bounded] at same
      exact bits_code lens inside isUsed (by omega) same
    · intro outside
      by_contra isUsed
      exact outside (Finset.mem_filter.mpr ⟨Finset.mem_range.mpr inside, isUsed⟩)
  rw [length] at is
  refine ⟨⟨f.finished, maxbitlen, lens.length⟩, ?_, fun n member => ?_⟩
  · unfold createLengths
    rw [counted, ok_bind, nextcodes, if_pos (show maxbitlen ≤ maxBitLength from bound)]
    change ((tree1d 0 lens _).bind fun codes => _) = _
    rw [found]
    change ((fillCodes _ _ (lens.zip codes) _).bind fun f => _) = _
    rw [filled]
    rfl
  · have known : n < 0 + lens.length := by
      rw [Nat.zero_add]
      exact code.small n member
    exact is.toRepresents.walks few rfl _ (code.nonempty n member) is.root (is.complete n member known)

/-- Lengths of the words of a code for which there is a tree: there is no room for another word, or enough in the array. -/
structure Usable (maxbitlen : Nat) (lens : List Nat) : Prop where
  most : 2 ≤ lens.length ∧ lens.length ≤ 288
  bound : maxbitlen ≤ 15
  short : ∀ l ∈ lens, l < 15 ∧ l ≤ maxbitlen
  kraft : ∑ n ∈ used (lenOf lens) lens.length, 2 ^ (15 - lenOf lens n) ≤ 2 ^ 15
  room : ∑ n ∈ used (lenOf lens) lens.length, 2 ^ (15 - lenOf lens n) = 2 ^ 15 ∨
    (stems (words (lenOf lens) lens.length)).card < lens.length

theorem Usable.lenOf_lt {maxbitlen : Nat} {lens : List Nat} (usable : Usable maxbitlen lens) (n : Nat) : lenOf lens n < 15 := by
  unfold lenOf
  rw [List.getD_eq_getElem?_getD]
  cases found : lens[n]? with
  | none => decide
  | some l => exact (usable.short l (List.mem_of_getElem? found)).1

theorem Usable.code {maxbitlen : Nat} {lens : List Nat} (usable : Usable maxbitlen lens) :
    Buildable lens.length (used (lenOf lens) lens.length) (word (lenOf lens) lens.length) := by
  have fits : Fits (lenOf lens) lens.length 15 := ⟨fun n _ => Nat.le_of_lt (usable.lenOf_lt n), usable.kraft⟩
  refine ⟨fun m is n is' => fits.eq_of_prefix is is', fun n is => Finset.mem_range.mp (Finset.mem_filter.mp is).1,
    fun n is => ?_, ?_, usable.most⟩
  · have length := @length_word (lenOf lens) lens.length n
    intro empty
    rw [empty] at length
    exact (Finset.mem_filter.mp is).2 length.symm
  · refine usable.room.elim (fun complete => ?_) id
    have counted := fits.card_stems complete
    have few : (used (lenOf lens) lens.length).card ≤ lens.length :=
      (Finset.card_filter_le _ _).trans_eq (Finset.card_range _)
    unfold words at counted
    omega

/-- Every word of the canonical code is decoded with the tree for its lengths. -/
theorem createLengths_decodes (maxbitlen : Nat) (lens : List Nat) (usable : Usable maxbitlen lens) :
    ∃ tree, createLengths maxbitlen lens = .ok tree ∧ ∀ n, n < lens.length → lenOf lens n ≠ 0 → ∀ bitstream bp inlength,
      bitstream.length ≤ inlength → Ahead bitstream bp (word (lenOf lens) lens.length n) →
        decodeSymbol bitstream bp tree inlength = .ok (n, bp + lenOf lens n) := by
  obtain ⟨tree, built, leads⟩ := createLengths_leads maxbitlen lens usable.bound usable.short usable.code
  refine ⟨tree, built, fun n inside isUsed bitstream bp inlength room ahead => ?_⟩
  have member : n ∈ used (lenOf lens) lens.length := Finset.mem_filter.mpr ⟨Finset.mem_range.mpr inside, isUsed⟩
  rw [walk_decodes (leads n member) room ahead, length_word]

theorem small_decodes : ∃ tree, createLengths 15 [1, 2, 2] = .ok tree ∧ ∀ n, n < 3 → lenOf [1, 2, 2] n ≠ 0 →
    ∀ bitstream bp inlength, bitstream.length ≤ inlength → Ahead bitstream bp (word (lenOf [1, 2, 2]) 3 n) →
      decodeSymbol bitstream bp tree inlength = .ok (n, bp + lenOf [1, 2, 2] n) :=
  createLengths_decodes 15 [1, 2, 2] ⟨by decide, by decide, by decide, by decide, .inl (by decide)⟩

section Bounds

theorem countLengths_ok (lens : List Nat) : ∀ {blcount}, (∀ l ∈ lens, l < 15) → ∃ counts, countLengths lens blcount = .ok counts := by
  induction lens with
  | nil => exact fun {blcount} _ => ⟨blcount, rfl⟩
  | cons l rest ih =>
    intro blcount short
    obtain ⟨first, others⟩ := List.forall_mem_cons.mp short
    have less : l < maxBitLength := first
    rw [countLengths, if_pos less]
    exact ih others

theorem countLengths_outOfBounds (lens : List Nat) : ∀ {blcount}, (∃ l ∈ lens, 15 ≤ l) →
    countLengths lens blcount = .error .outOfBounds := by
  induction lens with
  | nil => exact fun ⟨_, is, _⟩ => absurd is List.not_mem_nil
  | cons l rest ih =>
    rintro blcount ⟨long, is, large⟩
    rw [countLengths]
    split
    · rename_i short
      rcases List.mem_cons.mp is with rfl | is
      · exact absurd short (Nat.not_lt.mpr large)
      · exact ih ⟨long, is, large⟩
    · rfl

/-- The tree is left with an error, but not its array. -/
theorem fillBits_inside {numcodes : Nat} (many : 2 ≤ numcodes) (few : numcodes < 2 ^ 32) (n : Nat) (w : List Bool) :
    ∀ {f}, f.tree2d.length = 2 * numcodes → fillBits numcodes n w f = malformed ∨
      ∃ f', fillBits numcodes n w f = .ok f' ∧ f'.tree2d.length = 2 * numcodes := by
  induction w with
  | nil => exact fun {f} length => .inr ⟨f, rfl, length⟩
  | cons bit rest ih =>
    intro f length
    have last : sub32 numcodes 2 = numcodes - 2 := by
      unfold sub32
      omega
    rw [fillBits, last]
    split
    · exact .inl rfl
    have bitLt := bit.toNat_lt
    have inside : 2 * f.treepos + bit.toNat < f.tree2d.length := by omega
    have loaded : load f.tree2d (2 * f.treepos + bit.toNat) = .ok f.tree2d[2 * f.treepos + bit.toNat] := by
      unfold load
      rw [List.getElem?_eq_getElem inside]
    dsimp only
    rw [loaded, ok_bind]
    split
    · split
      · exact ih (List.length_set.trans length)
      · exact ih (List.length_set.trans length)
    · exact ih length

theorem fillCodes_inside {numcodes : Nat} (many : 2 ≤ numcodes) (few : numcodes < 2 ^ 32) (codes : List (Nat × Nat)) :
    ∀ {n f}, f.tree2d.length = 2 * numcodes → fillCodes numcodes n codes f ≠ .error .outOfBounds := by
  induction codes with
  | nil => exact fun _ => nofun
  | cons code rest ih =>
    intro n f length
    obtain ⟨bitlen, code⟩ := code
    rw [fillCodes]
    rcases fillBits_inside many few n (PrefixCode.bits bitlen code) length with stopped | ⟨f', filled, length'⟩
    · rw [stopped]
      exact nofun
    · rw [filled, ok_bind]
      exact ih length'

theorem tree1d_outOfBounds (lens : List Nat) : ∀ {n next} {i l : Nat}, lens[i]? = some l → l ≠ 0 → 288 ≤ n + i →
    tree1d n lens next = .error .outOfBounds := by
  induction lens with
  | nil => simp
  | cons first rest ih =>
    rintro n next (_ | i) l found isUsed large
    · obtain rfl : first = l := by simpa using found
      rw [tree1d, if_neg isUsed, if_neg (Nat.not_lt.mpr (show maxSymbols ≤ n from large))]
    · have later : ∀ {next}, tree1d (n + 1) rest next = .error .outOfBounds :=
        ih (List.getElem?_cons_succ ▸ found) isUsed (by omega)
      rw [tree1d]
      split
      · rw [later]
        rfl
      · split
        · rw [later]
          rfl
        · rfl

/-- The lengths and codes leave one of the arrays of counts and codes. -/
def LeavesArrays (maxbitlen : Nat) (lens : List Nat) : Prop :=
  (∃ l ∈ lens, 15 ≤ l) ∨ 15 < maxbitlen ∨ ∃ i l, lens[i]? = some l ∧ l ≠ 0 ∧ 288 ≤ i

/-- No other array is left than those of the counts and codes. -/
theorem createLengths_outOfBounds_iff (maxbitlen : Nat) (lens : List Nat) (many : 2 ≤ lens.length) (few : lens.length < 2 ^ 32) :
    createLengths maxbitlen lens = .error .outOfBounds ↔ LeavesArrays maxbitlen lens := by
  constructor
  · intro left
    by_contra inside
    obtain ⟨none, inside⟩ := not_or.mp inside
    obtain ⟨bound, symbols⟩ := not_or.mp inside
    push Not at none bound symbols
    obtain ⟨counts, counted⟩ : ∃ counts, countLengths lens (fun _ => 0) = .ok counts := countLengths_ok lens none
    have found := @tree1d_ok lens 0 (fun bits => if bits ≤ maxbitlen then nextcode counts bits else 0)
      fun i l is isUsed => by
        have inside := symbols i l is isUsed
        omega
    generalize (codesFrom lens fun bits => if bits ≤ maxbitlen then nextcode counts bits else 0) = codes at found
    unfold createLengths at left
    rw [counted, ok_bind, nextcodes, if_pos (show maxbitlen ≤ maxBitLength from bound)] at left
    change ((tree1d 0 lens _).bind fun codes => _) = _ at left
    rw [found] at left
    change ((fillCodes _ _ (lens.zip codes) _).bind fun f => _) = _ at left
    have filled := fillCodes_inside many few (lens.zip codes)
      (n := 0) (f := ⟨List.replicate (2 * lens.length) unfilled, 0, 0⟩) List.length_replicate
    cases result : fillCodes lens.length 0 (lens.zip codes) ⟨List.replicate (2 * lens.length) unfilled, 0, 0⟩ with
    | error stop =>
      rw [result] at left filled
      have same : (.error stop : Png HuffmanTree) = .error .outOfBounds := left
      exact filled (congrArg _ (Except.error.inj same))
    | ok f =>
      rw [result] at left
      cases left
  · intro leaves
    unfold createLengths
    by_cases long : ∃ l ∈ lens, 15 ≤ l
    · rw [countLengths_outOfBounds lens long]
      rfl
    · have inside := Or.resolve_left leaves long
      push Not at long
      obtain ⟨counts, counted⟩ : ∃ counts, countLengths lens (fun _ => 0) = .ok counts := countLengths_ok lens long
      rw [counted, ok_bind, nextcodes]
      rcases inside with large | ⟨i, l, found, isUsed, late⟩
      · rw [if_neg (Nat.not_le.mpr (show maxBitLength < maxbitlen from large))]
        rfl
      · split
        · change ((tree1d 0 lens _).bind fun codes => _) = _
          rw [tree1d_outOfBounds lens found isUsed (by omega)]
          rfl
        · rfl

theorem long_word_outOfBounds : createLengths 15 [1, 15] = .error .outOfBounds ↔ LeavesArrays 15 [1, 15] :=
  createLengths_outOfBounds_iff 15 [1, 15] (by decide) (by decide)

end Bounds

end MPStuBS.PNG
