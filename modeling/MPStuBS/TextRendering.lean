import MPStuBS.Framebuffer

/-! Text on the screen: `bitmap` and `text` of `graphics/printer.h`. -/
namespace MPStuBS.GraphicsPrinter

/-- A bit of a glyph is drawn at an address. -/
structure Dot where
  row : Nat
  column : Nat
  address : Nat
  deriving DecidableEq, Repr

/-- The loop over the bits of a byte, from the highest of so many bits on. -/
def bits (pixelSize : Nat) (sprite : UInt8) (row : Nat) : Nat → Nat → Nat → List Dot
  | 0, _, _ => []
  | src + 1, column, pixel =>
    if sprite.toNat.testBit src then ⟨row, column, pixel⟩ :: bits pixelSize sprite row src (column + 1) (pixel + pixelSize)
    else bits pixelSize sprite row src (column + 1) (pixel + pixelSize)

/-- The loop over the bytes of a row. -/
def bytes (pixelSize : Nat) (data : Nat → UInt8) (row : Nat) : Nat → Nat → Nat → Nat → List Dot
  | 0, _, _, _ => []
  | x + 1, sprite, column, pixel =>
    bits pixelSize (data sprite) row 8 column pixel ++
      bytes pixelSize data row x (sprite + 1) (column + 8) (pixel + 8 * pixelSize)

/-- The loop over the rows. -/
def lines (fb : Framebuffer) (p : Point) (data : Nat → UInt8) (widthByte : Nat) : List Nat → Nat → List Dot
  | [], _ => []
  | y :: ys, sprite =>
    bytes fb.pixelSize data y widthByte sprite 0 (fb.get (u32 p.x) (u32 p.y) + u32 (y * fb.screenWidth) * fb.pixelSize) ++
      lines fb p data widthByte ys (sprite + widthByte)

/-- The bytes of a row, in an `unsigned short`. -/
def widthByte (width : Nat) : Nat := (width / 8 + if width % 8 ≠ 0 then 1 else 0) % 65536

def bitmap (fb : Framebuffer) (p : Point) (data : Nat → UInt8) (sprite width height : Nat) : List Dot :=
  lines fb p data (widthByte width) (upTo 0 height) sprite

/-- The position of the next character. -/
def following (fb : Framebuffer) (f : Font) (pos : Point) : Point :=
  let x := i32 (pos.x + f.width)
  if fb.screenWidth < u32 (x + f.width) then ⟨0, i32 (pos.y + f.height)⟩ else ⟨x, pos.y⟩

/-- A character that was drawn. -/
structure Glyph where
  pos : Point
  char : UInt8
  dots : List Dot

/-- The loop over the characters. -/
def glyphs (fb : Framebuffer) (f : Font) : List UInt8 → Point → List Glyph
  | [], _ => []
  | c :: string, pos =>
    ⟨pos, c, bitmap fb pos f.data (f.symbol c) f.width f.height⟩ :: glyphs fb f string (following fb f pos)

/-- Without a font of its own, a text is in the active one. -/
def text (fb : Framebuffer) (active : Option Font) (p : Point) (string : List UInt8) (font : Option Font) : List Glyph :=
  match font.or active with
  | none => []
  | some font => glyphs fb font string p

section Bitmaps

variable {fb : Framebuffer} {dot : Dot} {data : Nat → UInt8}

theorem mem_bits {pixelSize row column pixel src : Nat} {sprite : UInt8} :
    dot ∈ bits pixelSize sprite row src column pixel ↔
      ∃ k < src, sprite.toNat.testBit (src - 1 - k) ∧ dot = ⟨row, column + k, pixel + k * pixelSize⟩ := by
  induction src generalizing column pixel with
  | zero => exact ⟨(nomatch ·), fun ⟨_, less, _⟩ => absurd less (Nat.not_lt_zero _)⟩
  | succ src ih =>
    have later : dot ∈ bits pixelSize sprite row src (column + 1) (pixel + pixelSize) ↔
        ∃ k < src, sprite.toNat.testBit (src + 1 - 1 - (k + 1)) ∧ dot = ⟨row, column + (k + 1), pixel + (k + 1) * pixelSize⟩ := by
      rw [ih]
      refine exists_congr fun k => and_congr_right fun _ => ?_
      rw [Nat.sub_sub src, Nat.add_comm 1 k, Nat.add_sub_cancel, Nat.add_assoc column, Nat.add_comm 1 k, Nat.add_assoc pixel,
        Nat.add_comm pixelSize, ← Nat.succ_mul]
    rw [bits, Nat.exists_lt_succ_left, ← later]
    split
    · rename_i set
      rw [List.mem_cons, Nat.zero_mul]
      exact or_congr_left (and_iff_right set).symm
    · rename_i unset
      exact ⟨Or.inr, fun h => h.resolve_left fun here => unset here.1⟩

theorem mem_bytes {pixelSize row sprite column pixel n : Nat} : dot ∈ bytes pixelSize data row n sprite column pixel ↔
    ∃ k < 8 * n, (data (sprite + k / 8)).toNat.testBit (7 - k % 8) ∧ dot = ⟨row, column + k, pixel + k * pixelSize⟩ := by
  induction n generalizing sprite column pixel with
  | zero => exact ⟨(nomatch ·), fun ⟨_, less, _⟩ => absurd less (Nat.not_lt_zero _)⟩
  | succ n ih =>
    unfold bytes
    rw [List.mem_append, mem_bits, ih]
    constructor
    · rintro (⟨k, less, set, rfl⟩ | ⟨k, less, set, rfl⟩)
      · refine ⟨k, by omega, ?_, rfl⟩
        rw [Nat.div_eq_of_lt less, Nat.mod_eq_of_lt less]
        exact set
      · refine ⟨k + 8, by omega, ?_, ?_⟩
        · rw [Nat.add_div_right k (by decide), Nat.add_mod_right, ← Nat.add_assoc, Nat.add_right_comm]
          exact set
        · rw [Nat.add_mul, Nat.add_right_comm, Nat.add_assoc, Nat.add_assoc, Nat.add_comm (k * pixelSize)]
    · rintro ⟨k, less, set, rfl⟩
      by_cases first : k < 8
      · rw [Nat.div_eq_of_lt first, Nat.mod_eq_of_lt first] at set
        exact Or.inl ⟨k, first, set, rfl⟩
      · obtain ⟨k, rfl⟩ := Nat.exists_eq_add_of_le' (Nat.le_of_not_lt first)
        rw [Nat.add_div_right k (by decide), Nat.add_mod_right] at set
        refine Or.inr ⟨k, by omega, ?_, ?_⟩
        · rw [Nat.add_right_comm, Nat.add_assoc]
          exact set
        · rw [Nat.add_mul, Nat.add_right_comm, Nat.add_assoc, Nat.add_assoc, Nat.add_comm (k * pixelSize)]

/-- The address at which a bit of a glyph is drawn. -/
def dotAddress (fb : Framebuffer) (p : Point) (row column : Nat) : Nat :=
  fb.get (u32 p.x) (u32 p.y) + u32 (row * fb.screenWidth) * fb.pixelSize + column * fb.pixelSize

theorem mem_lines {p : Point} {wide sprite y n : Nat} : dot ∈ lines fb p data wide (List.range' y n) sprite ↔
    ∃ k < n, ∃ column < 8 * wide, (data (sprite + k * wide + column / 8)).toNat.testBit (7 - column % 8) ∧
      dot = ⟨y + k, column, dotAddress fb p (y + k) column⟩ := by
  induction n generalizing y sprite with
  | zero => exact ⟨(nomatch ·), fun ⟨_, less, _⟩ => absurd less (Nat.not_lt_zero _)⟩
  | succ n ih =>
    rw [List.range'_succ]
    unfold lines
    rw [List.mem_append, mem_bytes, ih, Nat.exists_lt_succ_left, Nat.zero_mul, Nat.add_zero]
    refine or_congr ?_ ?_
    · simp only [Nat.zero_add, Nat.add_zero, dotAddress]
    · refine exists_congr fun k => and_congr_right fun _ => ?_
      rw [Nat.add_mul, Nat.one_mul, Nat.add_assoc sprite, Nat.add_comm wide, Nat.add_assoc y, Nat.add_comm 1 k]

end Bitmaps

section Texts

/-- The bytes of a row of a glyph. -/
def Font.stride (f : Font) : Nat := (f.width + 7) / 8

/-- A bit of a character, as its bytes are stored: one character after another, row by row. -/
def Font.Sets (f : Font) (c : UInt8) (row column : Nat) : Prop :=
  row < f.height ∧ column < 8 * f.stride ∧
    (f.data (f.stride * f.height * c.toNat + row * f.stride + column / 8)).toNat.testBit (7 - column % 8)

/-- A bit of the glyph that is looked up for a character. -/
def Font.LooksUp (f : Font) (c : UInt8) (row column : Nat) : Prop :=
  row < f.height ∧ column < 8 * widthByte f.width ∧
    (f.data (f.symbol c + row * widthByte f.width + column / 8)).toNat.testBit (7 - column % 8)

/-- Exactly the set bits of the character are drawn, at their pixels, in the memory of the visible screen. -/
structure Glyph.Rendered (fb : Framebuffer) (f : Font) (g : Glyph) : Prop where
  drawn : ∀ row column address, ⟨row, column, address⟩ ∈ g.dots ↔
    f.Sets g.char row column ∧ address = fb.get (u32 (g.pos.x + column)) (u32 (g.pos.y + row))
  inside : ∀ dot ∈ g.dots, ∀ k < fb.pixelSize, fb.Visible (dot.address + k)

/-- The positions of the characters. -/
def places (fb : Framebuffer) (f : Font) : List UInt8 → Point → List (Point × UInt8)
  | [], _ => []
  | c :: string, pos => (pos, c) :: places fb f string (following fb f pos)

/-- A row of a glyph begins in memory where the glyph expects it. -/
structure InPlace (fb : Framebuffer) (p : Point) (row column : Nat) : Prop where
  column : u32 p.x + column < 4294967296
  row : u32 (u32 (p.y + row) * fb.pitch) = u32 (u32 p.y * fb.pitch) + u32 (row * fb.screenWidth) * fb.pixelSize

/-- The glyph that is looked up for a character has its bits, and they are in place and visible. -/
structure Renderable (fb : Framebuffer) (f : Font) (p : Point) (c : UInt8) : Prop where
  same : ∀ row column, f.LooksUp c row column ↔ f.Sets c row column
  inPlace : ∀ row column, f.Sets c row column → InPlace fb p row column
  visible : ∀ row column, f.Sets c row column → ∀ k < fb.pixelSize, fb.Visible (fb.get (u32 (p.x + column)) (u32 (p.y + row)) + k)

variable {fb : Framebuffer} {f : Font}

theorem mem_bitmap {p : Point} {c : UInt8} {row column address : Nat} :
    ⟨row, column, address⟩ ∈ bitmap fb p f.data (f.symbol c) f.width f.height ↔
      f.LooksUp c row column ∧ address = dotAddress fb p row column := by
  unfold bitmap upTo
  rw [mem_lines]
  constructor
  · rintro ⟨k, inside, column', wide, set, same⟩
    obtain ⟨rfl, rfl, rfl⟩ := Dot.mk.inj same
    rw [Nat.zero_add]
    exact ⟨⟨inside, wide, set⟩, rfl⟩
  · rintro ⟨⟨inside, wide, set⟩, rfl⟩
    refine ⟨row, inside, column, wide, set, ?_⟩
    rw [Nat.zero_add]

/-- A bit is drawn at its own pixel exactly if it is in place. -/
theorem dotAddress_iff {p : Point} {row column : Nat} :
    dotAddress fb p row column = fb.get (u32 (p.x + column)) (u32 (p.y + row)) ↔ InPlace fb p row column := by
  have wraps : u32 (p.x + column) = (u32 p.x + column) % 4294967296 := by
    unfold u32
    omega
  have less := u32_lt (u32 (p.y + row) * fb.pitch)
  unfold dotAddress Framebuffer.get
  rw [wraps]
  by_cases small : u32 p.x + column < 4294967296
  · rw [Nat.mod_eq_of_lt small, Nat.add_mul]
    exact ⟨fun same => ⟨small, by omega⟩, fun ⟨_, same⟩ => by omega⟩
  · have beyond : ((u32 p.x + column) % 4294967296 + 4294967296) * fb.pixelSize ≤ (u32 p.x + column) * fb.pixelSize :=
      Nat.mul_le_mul_right fb.pixelSize (by omega)
    have positive := fb.positive
    rw [Nat.add_mul, Nat.add_mul (u32 p.x)] at beyond
    exact ⟨fun same => by omega, fun inPlace => absurd inPlace.column small⟩

/-- On a screen below 4 GiB, only a first row is in place, or the visible screen has the whole pitch. -/
theorem inPlace_iff {x y row column : Nat} (tall : fb.screenHeight < 4294967296)
    (whole : fb.screenHeight * fb.pitch < 4294967296) (covers : fb.screenWidth * fb.pixelSize ≤ fb.pitch)
    (inside : y + row < fb.screenHeight) (small : x + column < 4294967296) :
    InPlace fb ⟨x, y⟩ row column ↔ row = 0 ∨ fb.pitch = fb.screenWidth * fb.pixelSize := by
  have last : (y + row) * fb.pitch ≤ fb.screenHeight * fb.pitch := Nat.mul_le_mul_right _ (Nat.le_of_lt inside)
  have narrow : row * fb.screenWidth ≤ row * fb.pitch := Nat.mul_le_mul_left _
    (Nat.le_trans (Nat.le_mul_of_pos_right _ fb.positive) covers)
  rw [Nat.add_mul] at last
  have rows : InPlace fb ⟨x, y⟩ row column ↔ row * fb.pitch = row * (fb.screenWidth * fb.pixelSize) := by
    have left : u32 (x : Int) = x := u32_of_lt (by omega)
    have top : u32 (y : Int) = y := u32_of_lt (by omega)
    have below : u32 ((y : Int) + row) = y + row := by
      rw [← Int.natCast_add, u32_of_lt (by omega)]
    have here : u32 ((y + row : Nat) * fb.pitch) = y * fb.pitch + row * fb.pitch := by
      rw [← Int.natCast_mul, u32_of_lt (by rw [Nat.add_mul]; omega), Nat.add_mul]
    have first : u32 (y * fb.pitch) = y * fb.pitch := by
      rw [← Int.natCast_mul, u32_of_lt (by omega)]
    have pixels : u32 (row * fb.screenWidth) = row * fb.screenWidth := by
      rw [← Int.natCast_mul, u32_of_lt (by omega)]
    rw [← Nat.mul_assoc]
    constructor
    · rintro ⟨-, same⟩
      dsimp only at same
      rw [below, top, here, first, pixels] at same
      exact Nat.add_left_cancel same
    · intro same
      refine ⟨by rw [left]; exact small, ?_⟩
      dsimp only
      rw [below, top, here, first, pixels, same]
  rw [rows]
  constructor
  · intro same
    rcases Nat.eq_zero_or_pos row with zero | positive
    · exact Or.inl zero
    · exact Or.inr (Nat.eq_of_mul_eq_mul_left positive same)
  · rintro (zero | same)
    · rw [zero, Nat.zero_mul, Nat.zero_mul]
    · rw [same]

/-- A width whose last byte of a row has no bit or at least four is stored as it is looked up. -/
theorem looksUp_iff {c : UInt8} {row column : Nat} (wide : f.width % 8 = 0 ∨ 4 ≤ f.width % 8) (small : f.stride < 65536)
    (whole : f.stride * f.height < 4294967296) : f.LooksUp c row column ↔ f.Sets c row column := by
  have stride : widthByte f.width = f.stride := by
    unfold widthByte
    unfold Font.stride at small ⊢
    split <;> omega
  have size : f.size = f.stride * f.height := by
    have bytes : u32 (f.width + (8 >>> 1 : Nat)) / 8 = f.stride := by
      rw [← Int.natCast_add, u32_of_lt (by unfold Font.stride at small; omega)]
      unfold Font.stride
      omega
    unfold Font.size
    rw [bytes, u32_of_lt whole]
  unfold Font.LooksUp Font.Sets Font.symbol
  rw [stride, size]

theorem rendered_iff {p : Point} {c : UInt8} :
    (Glyph.mk p c (bitmap fb p f.data (f.symbol c) f.width f.height)).Rendered fb f ↔ Renderable fb f p c := by
  constructor
  · rintro ⟨drawn, inside⟩
    have same : ∀ row column, f.LooksUp c row column ↔ f.Sets c row column := fun row column =>
      ⟨fun looks => ((drawn row column _).mp (mem_bitmap.mpr ⟨looks, rfl⟩)).1,
        fun sets => (mem_bitmap.mp ((drawn row column _).mpr ⟨sets, rfl⟩)).1⟩
    refine ⟨same, fun row column sets => ?_, fun row column sets k less => ?_⟩
    · exact dotAddress_iff.mp (mem_bitmap.mp ((drawn row column _).mpr ⟨sets, rfl⟩)).2.symm
    · exact inside _ ((drawn row column _).mpr ⟨sets, rfl⟩) k less
  · rintro ⟨same, inPlace, visible⟩
    constructor
    · intro row column address
      rw [mem_bitmap, same]
      refine and_congr_right fun sets => ?_
      rw [dotAddress_iff.mpr (inPlace row column sets)]
    · rintro ⟨row, column, address⟩ member k less
      obtain ⟨looks, rfl⟩ := mem_bitmap.mp member
      have sets := (same row column).mp looks
      rw [dotAddress_iff.mpr (inPlace row column sets)]
      exact visible row column sets k less

theorem glyphs_eq (string : List UInt8) (p : Point) : glyphs fb f string p =
    (places fb f string p).map fun place =>
      ⟨place.1, place.2, bitmap fb place.1 f.data (f.symbol place.2) f.width f.height⟩ := by
  induction string generalizing p with
  | nil => rfl
  | cons c string ih => exact congrArg (List.cons _) (ih _)

/-- The text is rendered exactly if all of its characters can be where they are. -/
theorem text_iff (fb : Framebuffer) (active font : Option Font) (f : Font) (chosen : font.or active = some f) (p : Point)
    (string : List UInt8) :
    (∀ g ∈ text fb active p string font, g.Rendered fb f) ↔ ∀ place ∈ places fb f string p, Renderable fb f place.1 place.2 := by
  unfold text
  rw [chosen]
  dsimp only
  rw [glyphs_eq, List.forall_mem_map]
  exact forall_congr' fun place => imp_congr_right fun _ => rendered_iff

/-- A font of two columns and one row, whose first character is empty and whose second one has a bit. -/
def narrow : Font := ⟨fun i => if i = 1 then 0x80 else 0, 2, 1⟩

/-- Eight by eight pixels of four bytes. -/
def square : Framebuffer := ⟨32, 8, 8, 4, by decide⟩

/-- The second character is drawn with the bits of the first one. -/
theorem narrow_font_draws_nothing : text square (some narrow) ⟨0, 0⟩ [1] none = [⟨⟨0, 0⟩, 1, []⟩] ∧
    ¬ ∀ g ∈ text square (some narrow) ⟨0, 0⟩ [1] none, g.Rendered square narrow := by
  have empty : text square (some narrow) ⟨0, 0⟩ [1] none = [⟨⟨0, 0⟩, 1, []⟩] := rfl
  refine ⟨empty, fun rendered => ?_⟩
  rw [empty] at rendered
  have drawn := (rendered _ (.head _)).drawn 0 0 0
  exact absurd (drawn.mpr ⟨⟨by decide, by decide, by decide⟩, by decide⟩) List.not_mem_nil

theorem text_narrow : (∀ g ∈ text square (some narrow) ⟨0, 0⟩ [0] none, g.Rendered square narrow) ↔
    ∀ place ∈ places square narrow [0] ⟨0, 0⟩, Renderable square narrow place.1 place.2 :=
  text_iff square (some narrow) none narrow rfl ⟨0, 0⟩ [0]

end Texts

end MPStuBS.GraphicsPrinter
