import Mathlib.Data.List.ReduceOption
import MPStuBS.TextCursor

/-! The buffer before a text window: `object/stringbuffer.cc` and `device/textstream.cc`. What a
stream prints in parts is what the window prints at once, exactly if the next character leaves the
cursor in the window. -/
namespace MPStuBS

structure Stringbuffer where
  buffer : Nat → UInt8
  pos : Nat

namespace Stringbuffer

def size : Nat := 80

def construct : Stringbuffer := ⟨fun _ => 0, 0⟩

/-- The characters up to the position. -/
def contents (b : Stringbuffer) : List UInt8 := (List.range b.pos).map b.buffer

/-- `flush` is that of the derived class. An index behind the buffer is an error. -/
def put {σ : Type} (flush : Stringbuffer × σ → Stringbuffer × σ) (c : UInt8) (p : Stringbuffer × σ) :
    Option (Stringbuffer × σ) :=
  let (b, device) := p
  if b.pos < size then
    let b : Stringbuffer := ⟨fun i => if i = b.pos then c else b.buffer i, b.pos + 1⟩
    if b.pos = size then
      let (b, device) := flush (b, device)
      some ({ b with pos := 0 }, device)
    else some (b, device)
  else none

end Stringbuffer

namespace TextStream

open TextMode TextWindow

def flush (core : Nat) (p : Stringbuffer × TextWindow × Screen) : Stringbuffer × TextWindow × Screen :=
  ({ p.1 with pos := 0 }, TextWindow.print core p.1.contents (defaultAttrib core) p.2.1 p.2.2)

def put (core : Nat) (c : UInt8) (p : Stringbuffer × TextWindow × Screen) :
    Option (Stringbuffer × TextWindow × Screen) :=
  Stringbuffer.put (flush core) c p

/-- Characters, with flushes between them. -/
def feed (core : Nat) : List (Option UInt8) → Stringbuffer × TextWindow × Screen →
    Option (Stringbuffer × TextWindow × Screen)
  | [], p => some p
  | some c :: rest, p => do
    let p ← put core c p
    feed core rest p
  | none :: rest, p => feed core rest (flush core p)

end TextStream

namespace TextWindow

open TextMode

variable {w : TextWindow} {s s' : Screen} {core : Nat} {attrib : UInt8}

section Printing

/-- The registers after the position was read. -/
def reads (w : TextWindow) (s : Screen) : Screen := if w.useCursor then { s with index := 15 } else s

theorem alike_reads (w : TextWindow) (s : Screen) : s.Alike (w.reads s) := by
  unfold reads
  split
  · exact ⟨rfl, fun _ _ _ => rfl⟩
  · exact .refl s

theorem position_congr {s' : Screen} (data : s'.data = s.data) : w.position s' = w.position s := by
  unfold position getCursor inData outIndex
  dsimp only
  rw [data]

theorem position_small (onScreen : w.OnScreen) (formed : w.Formed) (s : Screen) :
    (w.position s).1 < 65536 ∧ (w.position s).2 < 65536 := by
  unfold position
  split
  · have bound := getCursor_lt s
    omega
  · rename_i software
    obtain ⟨cols, right, rows, bottom⟩ := onScreen
    rcases formed (by simpa using software) with inside | ⟨-, posX, posY⟩
    · have := inside.right
      have := inside.bottom
      dsimp only at *
      omega
    · dsimp only
      omega

/-- A print reads the position, runs over the characters from there and sets the position. -/
theorem print_eq (onScreen : w.OnScreen) (formed : w.Formed) (string : List UInt8) (s : Screen) :
    print core string attrib w s =
      w.setPos (u32 ((run core attrib w string (w.position s) (w.reads s)).1.1 - w.fromCol))
        (u32 ((run core attrib w string (w.position s) (w.reads s)).1.2 - w.fromRow))
        (run core attrib w string (w.position s) (w.reads s)).2 := by
  have small := position_small onScreen formed s
  obtain ⟨cols, right, rows, bottom⟩ := onScreen
  have back : ∀ {x low : Nat}, x < 65536 → low ≤ 80 → u32 ((u32 (x - low) : Nat) + low) = x := by
    intro x low less le
    unfold u32
    omega
  have got : ∃ relX relY, w.getPos s = ((relX, relY), w.reads s) ∧ u32 (relX + w.fromCol) = (w.position s).1 ∧
      u32 (relY + w.fromRow) = (w.position s).2 := by
    unfold getPos reads position at *
    by_cases hardware : w.useCursor = true
    · simp only [if_pos hardware] at small ⊢
      exact ⟨_, _, rfl, back small.1 (by omega), back small.2 (by omega)⟩
    · simp only [if_neg hardware] at small ⊢
      exact ⟨_, _, rfl, back small.1 (by omega), back small.2 (by omega)⟩
  obtain ⟨relX, relY, gets, absX, absY⟩ := got
  unfold print
  rw [gets]
  dsimp only
  rw [absX, absY]
  rfl

variable (onScreen : w.OnScreen) (formed : w.Formed)
include onScreen formed

variable (core attrib) in
theorem print_of_empty (empty : w.Empty) (string : List UInt8) (s : Screen) :
    ∃ s', print core string attrib w s = (w, s') ∧ s'.data = s.data := by
  refine ⟨(run core attrib w string (w.position s) (w.reads s)).2, ?_, ?_⟩
  · rw [print_eq onScreen formed]
    obtain ⟨cols, right, rows, bottom⟩ := onScreen
    unfold Empty at empty
    unfold setPos
    rw [if_pos]
    rcases empty with narrow | low
    · refine .inl (Nat.le_trans (Nat.le_of_eq ?_) (Nat.zero_le _))
      rw [u32_sub cols (by omega)]
      omega
    · refine .inr (Nat.le_trans (Nat.le_of_eq ?_) (Nat.zero_le _))
      rw [u32_sub rows (by omega)]
      omega
  · rw [(run_registers string _ _).data]
    unfold reads
    split <;> rfl

variable (cells : ¬ w.Empty)
include cells

variable (core attrib) in
/-- A print that ends outside the window leaves the cursor. -/
theorem print_of_outside {string : List UInt8} (outside : ¬ w.Inside (string.foldl w.move (w.position s))) :
    ∃ s', print core string attrib w s = (w, s') ∧ s'.data = s.data := by
  have small := position_small onScreen formed s
  have moved := run_moves core attrib onScreen cells string (w.reads s) small
  refine ⟨(run core attrib w string (w.position s) (w.reads s)).2, ?_, ?_⟩
  · rw [print_eq onScreen formed, moved]
    exact setPos_of_not_inside onScreen (moves_small onScreen cells string small) outside _
  · rw [(run_registers string _ _).data]
    unfold reads
    split <;> rfl

variable (core attrib) in
theorem print_of_inside {string : List UInt8} (inside : w.Inside (string.foldl w.move (w.position s))) :
    print core string attrib w s = w.place (string.foldl w.move (w.position s))
      (run core attrib w string (w.position s) (w.reads s)).2 := by
  have moved := run_moves core attrib onScreen cells string (w.reads s)
    (position_small onScreen formed s)
  rw [print_eq onScreen formed, moved]
  exact setPos_of_inside onScreen inside _

end Printing

section Continuing

/-- The next character leaves the position inside the window. -/
def Continues (w : TextWindow) (p : Nat × Nat) : Prop :=
  w.toCol ≤ p.1 + 1 ∧ w.fromRow ≤ p.2 + 1 ∨
    w.fromCol ≤ p.1 + 1 ∧ p.1 + 1 < w.toCol ∧ w.fromRow ≤ p.2 ∧ p.2 < w.toRow

variable {p : Nat × Nat}

theorem Inside.continues (inside : w.Inside p) : w.Continues p := by
  obtain ⟨left, right, top, bottom⟩ := inside
  unfold Continues
  omega

theorem Continues.move (continues : w.Continues p) (cells : ¬ w.Empty) (c : UInt8) : w.Inside (w.move p c) := by
  unfold Continues at continues
  unfold Empty at cells
  have row : w.fromRow ≤ p.2 + 1 := by omega
  unfold TextWindow.move nextRow
  split
  · split
    · exact ⟨Nat.le_refl _, by dsimp only; omega, by dsimp only; omega, by dsimp only; omega⟩
    · exact ⟨Nat.le_refl _, by dsimp only; omega, row, by dsimp only; omega⟩
  · rename_i plain
    rw [not_or] at plain
    exact ⟨by dsimp only; omega, by dsimp only; omega, by dsimp only; omega, by dsimp only; omega⟩

theorem Inside.moves (cells : ¬ w.Empty) (string : List UInt8) : ∀ {p}, w.Inside p → w.Inside (string.foldl w.move p) := by
  induction string with
  | nil => exact fun inside => inside
  | cons c string ih => exact fun inside => ih (inside.continues.move cells c)

variable (onScreen : w.OnScreen) (formed : w.Formed)
include onScreen formed

theorem print_reads (string : List UInt8) (s : Screen) :
    print core string attrib w (w.reads s) = print core string attrib w s := by
  have position : w.position (w.reads s) = w.position s := position_congr (by unfold reads; split <;> rfl)
  have reads : w.reads (w.reads s) = w.reads s := by
    unfold TextWindow.reads
    by_cases hardware : w.useCursor = true
    · simp only [if_pos hardware]
    · simp only [if_neg hardware]
  rw [print_eq onScreen formed, print_eq onScreen formed, position, reads]

/-- What is printed in two parts is printed as at once. -/
theorem print_append (cells : ¬ w.Empty) (continues : w.Continues (w.position s)) (a b : List UInt8) :
    print core (a ++ b) attrib w s =
      print core b attrib (print core a attrib w s).1 (print core a attrib w s).2 := by
  by_cases inside : w.Inside (a.foldl w.move (w.position s))
  · have ends := inside.moves cells b
    have whole : w.Inside ((a ++ b).foldl w.move (w.position s)) := by rwa [List.foldl_append]
    have moved := run_moves core attrib onScreen cells a (w.reads s)
      (position_small onScreen formed s)
    rw [print_of_inside core attrib onScreen formed cells whole, print_of_inside core attrib onScreen formed cells inside, run_append, moved,
      List.foldl_append]
    set pa := a.foldl w.move (w.position s)
    set sa := (run core attrib w a (w.position s) (w.reads s)).2
    by_cases hardware : w.useCursor = true
    · have placed : w.place pa sa = (w, setCursor pa.1 pa.2 sa) := if_pos hardware
      have position : w.position (setCursor pa.1 pa.2 sa) = pa := by
        have there := position_place onScreen inside sa
        rwa [placed] at there
      have alike : sa.Alike (w.reads (setCursor pa.1 pa.2 sa)) := (alike_setCursor _ _ _).trans (alike_reads w _)
      rw [placed, print_of_inside core attrib onScreen formed cells (by rwa [position]), position]
      unfold place
      rw [if_pos hardware, if_pos hardware]
      exact congrArg _ (setCursor_alike (run_alike b alike).2 (ends.on onScreen).1 (ends.on onScreen).2)
    · have placed : w.place pa sa = ({ w with posX := pa.1, posY := pa.2 }, sa) := if_neg hardware
      have formed' : Formed { w with posX := pa.1, posY := pa.2 } := fun _ =>
        .inl ⟨inside.left, inside.right, inside.top, inside.bottom⟩
      have onScreen' : OnScreen { w with posX := pa.1, posY := pa.2 } :=
        ⟨onScreen.cols, onScreen.right, onScreen.rows, onScreen.bottom⟩
      have position : position { w with posX := pa.1, posY := pa.2 } sa = pa := if_neg hardware
      have reads : reads { w with posX := pa.1, posY := pa.2 } sa = sa := if_neg hardware
      have ends' : Inside { w with posX := pa.1, posY := pa.2 } (b.foldl w.move pa) :=
        ⟨ends.left, ends.right, ends.top, ends.bottom⟩
      have moves : TextWindow.move { w with posX := pa.1, posY := pa.2 } = w.move := rfl
      rw [placed, print_of_inside (w := { w with posX := pa.1, posY := pa.2 }) core attrib onScreen' formed' cells
        (by rwa [position, moves]), position, reads, moves]
      unfold place
      rw [if_neg hardware, if_neg hardware]
      rfl
  · cases a with
    | nil =>
      have stays : print core [] attrib w s = (w, w.reads s) := by
        rw [print_eq onScreen formed]
        exact setPos_of_not_inside onScreen (position_small onScreen formed s) inside _
      rw [stays, print_reads onScreen formed, List.nil_append]
    | cons c a => exact absurd ((continues.move cells c).moves cells a) inside

end Continuing

section Losing

variable {p : Nat × Nat}

theorem moves_rows (n : Nat) : ∀ {p : Nat × Nat}, p.2 + n + 1 < w.toRow →
    (List.replicate (n + 1) newline).foldl w.move p = (w.fromCol, p.2 + n + 1) := by
  induction n with
  | zero =>
    intro p room
    rw [List.replicate_one, List.foldl_cons, List.foldl_nil, TextWindow.move, if_pos (.inl rfl), nextRow, if_neg (by omega)]
  | succ n ih =>
    intro p room
    rw [List.replicate_succ, List.foldl_cons, TextWindow.move, if_pos (.inl rfl), nextRow, if_neg (by omega),
      ih (by dsimp only; omega)]
    exact Prod.ext rfl (by dsimp only; omega)

theorem moves_along (n : Nat) : ∀ {p : Nat × Nat}, p.1 + n < w.toCol →
    (List.replicate n blank).foldl w.move p = (p.1 + n, p.2) := by
  induction n with
  | zero => exact fun _ => rfl
  | succ n ih =>
    intro p room
    have plain : ¬ (blank = newline ∨ w.toCol ≤ p.1 + 1) := not_or.mpr ⟨by decide, by omega⟩
    rw [List.replicate_succ, List.foldl_cons, TextWindow.move, if_neg plain, ih (by dsimp only; omega)]
    exact Prod.ext (by dsimp only; omega) rfl

/-- Two texts that lead into the window one after the other, but none of them alone. -/
structure Loses (w : TextWindow) (p : Nat × Nat) (a b : List UInt8) : Prop where
  fst : ¬ w.Inside (a.foldl w.move p)
  snd : ¬ w.Inside (b.foldl w.move p)
  both : w.Inside ((a ++ b).foldl w.move p)
  short : a.length < 80 ∧ b.length < 80

/-- From a position that does not continue, such texts are lost. -/
theorem exists_loses (onScreen : w.OnScreen) (cells : ¬ w.Empty) (stuck : ¬ w.Continues p) : ∃ a b, w.Loses p a b := by
  obtain ⟨cols, right, rows, bottom⟩ := onScreen
  have width : w.fromCol < w.toCol ∧ w.fromRow < w.toRow := by
    unfold Empty at cells
    omega
  unfold Continues at stuck
  have plain : ∀ {p : Nat × Nat}, p.1 + 1 < w.toCol → w.move p blank = (p.1 + 1, p.2) := fun room => by
    rw [TextWindow.move, if_neg (not_or.mpr ⟨by decide, by omega⟩)]
  by_cases above : p.2 + 1 < w.fromRow
  · obtain ⟨n, gap⟩ := Nat.exists_eq_add_of_lt above
    -- lines above the window
    refine ⟨[newline], List.replicate (n + 1) newline, fun inside => ?_, fun inside => ?_, ?_, by decide, by simp; omega⟩
    · rw [← List.replicate_one, moves_rows 0 (by omega)] at inside
      have := inside.top
      dsimp only at this
      omega
    · rw [moves_rows n (by omega)] at inside
      have := inside.top
      dsimp only at this
      omega
    · rw [← List.replicate_one, ← List.replicate_add, Nat.add_comm, moves_rows (n + 1) (by omega)]
      exact ⟨Nat.le_refl _, width.1, by dsimp only; omega, by dsimp only; omega⟩
  · have room : p.1 + 1 < w.toCol := by omega
    by_cases left : w.fromRow ≤ p.2 ∧ p.2 < w.toRow
    · obtain ⟨n, gap⟩ := Nat.exists_eq_add_of_lt (show p.1 + 1 < w.fromCol by omega)
      -- columns to the left of the window
      refine ⟨[blank], List.replicate (n + 1) blank, fun inside => ?_, fun inside => ?_, ?_, by decide, by simp; omega⟩
      · rw [List.foldl_cons, List.foldl_nil, plain room] at inside
        have := inside.left
        dsimp only at this
        omega
      · rw [moves_along (n + 1) (by omega)] at inside
        have := inside.left
        dsimp only at this
        omega
      · rw [← List.replicate_one, ← List.replicate_add, moves_along (1 + (n + 1)) (by omega)]
        exact ⟨by dsimp only; omega, by dsimp only; omega, left.1, left.2⟩
    · obtain ⟨n, gap⟩ := Nat.exists_eq_add_of_lt room
      -- rows beside the window, which the end of the row leads into it
      have ends : w.move (w.toCol - 1, p.2) blank = w.nextRow p.2 := by
        rw [TextWindow.move, if_pos (.inr (by dsimp only; omega))]
      refine ⟨[blank], List.replicate (n + 1) blank, fun inside => ?_, fun inside => ?_, ?_, by decide, by simp; omega⟩
      · rw [List.foldl_cons, List.foldl_nil, plain room] at inside
        exact left ⟨inside.top, inside.bottom⟩
      · rw [moves_along (n + 1) (by omega)] at inside
        exact left ⟨inside.top, inside.bottom⟩
      · have last : [blank] ++ List.replicate (n + 1) blank = List.replicate (n + 1) blank ++ [blank] := by
          rw [← List.replicate_succ', List.singleton_append, ← List.replicate_succ]
        rw [last, List.foldl_append, moves_along (n + 1) (by omega), List.foldl_cons, List.foldl_nil,
          show p.1 + (n + 1) = w.toCol - 1 by omega, ends, nextRow]
        split
        · exact ⟨Nat.le_refl _, width.1, by dsimp only; omega, by dsimp only; omega⟩
        · exact ⟨Nat.le_refl _, width.1, by dsimp only; omega, by dsimp only; omega⟩

end Losing

/-- The windows show the same, and the cursors are at the same place. -/
structure Same (p q : TextWindow × Screen) : Prop where
  contents : ∀ x y, p.1.Inside (x, y) → p.2.memory (x + y * columns) = q.2.memory (x + y * columns)
  cursor : (p.1.getPos p.2).1 = (q.1.getPos q.2).1

theorem getPos_eq (w : TextWindow) (s : Screen) :
    (w.getPos s).1 = (u32 ((w.position s).1 - w.fromCol), u32 ((w.position s).2 - w.fromRow)) := by
  unfold getPos position
  by_cases hardware : w.useCursor = true
  · simp only [if_pos hardware]
  · simp only [if_neg hardware]

/-- A window without cells shows nothing, and its cursor stays. -/
theorem Same.of_empty {s' s'' : Screen} (empty : w.Empty) (data : s'.data = s.data) (data' : s''.data = s.data) :
    Same (w, s') (w, s'') := by
  refine ⟨fun x y inside => absurd empty inside.not_empty, ?_⟩
  rw [getPos_eq, getPos_eq, position_congr data, position_congr data']

variable (core attrib) in
/-- What is lost in two parts is not lost at once. -/
theorem Loses.not_same {a b : List UInt8} (onScreen : w.OnScreen) (formed : w.Formed) (cells : ¬ w.Empty)
    (stuck : ¬ w.Continues (w.position s)) (loses : w.Loses (w.position s) a b) :
    ¬ Same (print core b attrib (print core a attrib w s).1 (print core a attrib w s).2)
      (print core (a ++ b) attrib w s) := by
  intro same
  have hardware : w.useCursor = true := by
    by_contra software
    rw [Bool.not_eq_true] at software
    have here : w.position s = (w.posX, w.posY) := if_neg (by simp [software])
    rcases formed software with inside | ⟨empty, -⟩
    · exact stuck (here ▸ inside.continues)
    · exact cells empty
  obtain ⟨s₁, fst, data₁⟩ := print_of_outside core attrib onScreen formed cells loses.fst
  have position₁ := position_congr (w := w) data₁
  obtain ⟨s₂, snd, data₂⟩ := print_of_outside core attrib (s := s₁) onScreen formed cells
    (by rw [position₁]; exact loses.snd)
  have whole := print_of_inside core attrib onScreen formed cells loses.both
  have there := position_place onScreen loses.both
    (run core attrib w (a ++ b) (w.position s) (w.reads s)).2
  have cursor := same.cursor
  rw [fst, snd, whole] at cursor
  rw [place, if_pos hardware] at cursor there
  rw [getPos_eq, getPos_eq, position_congr data₂, position₁, there] at cursor
  have small := position_small onScreen formed s
  have inside := loses.both
  have bound := inside.on onScreen
  obtain ⟨cols, right, rows, bottom⟩ := onScreen
  have outside : ¬ w.Inside (w.position s) := fun inside => stuck inside.continues
  generalize (a ++ b).foldl w.move (w.position s) = q at *
  generalize w.position s = p at *
  have both : u32 (p.1 - w.fromCol) = u32 (q.1 - w.fromCol) ∧ u32 (p.2 - w.fromRow) = u32 (q.2 - w.fromRow) :=
    ⟨congrArg Prod.fst cursor, congrArg Prod.snd cursor⟩
  unfold u32 at both
  have same : p = q := Prod.ext (by omega) (by omega)
  exact outside (same ▸ inside)

end TextWindow

namespace TextStream

open TextMode TextWindow

variable {w : TextWindow} {s : Screen} {core : Nat}

section Feeding

theorem contents_push (b : Stringbuffer) (c : UInt8) :
    (⟨fun i => if i = b.pos then c else b.buffer i, b.pos + 1⟩ : Stringbuffer).contents = b.contents ++ [c] := by
  unfold Stringbuffer.contents
  dsimp only
  rw [List.range_succ, List.map_append, List.map_singleton, if_pos rfl]
  refine congrArg (· ++ [c]) (List.map_congr_left fun i inside => ?_)
  rw [if_neg (Nat.ne_of_lt (List.mem_range.mp inside))]

variable (core) in
/-- What characters and flushes keep is kept by the stream, whose position stays below 80. -/
theorem feed_keeps {I : Stringbuffer × TextWindow × Screen → List UInt8 → Prop}
    (adds : ∀ b d text c, I (b, d) text → I (⟨fun i => if i = b.pos then c else b.buffer i, b.pos + 1⟩, d) (text ++ [c]))
    (flushes : ∀ p text, I p text → I (flush core p) text) (ops : List (Option UInt8)) :
    ∀ {p} text, p.1.pos < 80 → I p text →
      ∃ p', feed core ops p = some p' ∧ p'.1.pos < 80 ∧ I p' (text ++ ops.reduceOption) := by
  induction ops with
  | nil => exact fun {p} text bound holds => ⟨p, rfl, bound, by rwa [List.reduceOption_nil, List.append_nil]⟩
  | cons op ops ih =>
    rintro ⟨b, d⟩ text bound holds
    cases op with
    | none => exact ih _ (show (flush core (b, d)).1.pos < 80 from (by decide : 0 < 80)) (flushes _ _ holds)
    | some c =>
      have added := adds b d text c holds
      rw [List.reduceOption_cons_of_some, List.append_cons]
      unfold feed put Stringbuffer.put Stringbuffer.size
      dsimp only
      rw [if_pos (show b.pos < 80 from bound)]
      by_cases full : b.pos + 1 = 80
      · rw [if_pos full, Option.bind_eq_bind, Option.bind_some]
        exact ih _ (show 0 < 80 by decide) (flushes _ _ added)
      · rw [if_neg full, Option.bind_eq_bind, Option.bind_some]
        exact ih _ (show b.pos + 1 < 80 by dsimp only at bound; omega) added

variable (core) in
theorem feed_short (text : List UInt8) : ∀ {b : Stringbuffer} {d : TextWindow × Screen} (rest : List (Option UInt8)),
    b.pos + text.length < 80 → ∃ b', feed core (text.map some ++ rest) (b, d) = feed core rest (b', d) ∧
      b'.contents = b.contents ++ text := by
  induction text with
  | nil => exact fun {b d} rest _ => ⟨b, rfl, (List.append_nil _).symm⟩
  | cons c text ih =>
    intro b d rest room
    rw [List.length_cons] at room
    obtain ⟨b', fed, contents⟩ := ih (b := ⟨fun i => if i = b.pos then c else b.buffer i, b.pos + 1⟩) (d := d) rest
      (by dsimp only; omega)
    refine ⟨b', ?_, by rw [contents, contents_push, List.append_assoc]; rfl⟩
    rw [List.map_cons, List.cons_append, ← fed]
    conv_lhs => unfold feed put Stringbuffer.put Stringbuffer.size
    dsimp only
    rw [if_pos (by omega), if_neg (by omega), Option.bind_eq_bind, Option.bind_some]

end Feeding

/-- However a text is put with flushes between its characters, the window shows it as if it were
printed at once, and there is room in the buffer after every character. -/
def Invisible (core : Nat) (w : TextWindow) (s : Screen) : Prop :=
  ∀ ops, ∃ p, feed core ops (.construct, w, s) = some p ∧ p.1.pos < 80 ∧
    Same (flush core p).2 (print core ops.reduceOption (defaultAttrib core) w s)

/-- A text that is printed in two parts is shown as if it were printed at once. -/
def Splits (core : Nat) (w : TextWindow) (s : Screen) : Prop :=
  ∀ a b attrib, Same (print core b attrib (print core a attrib w s).1 (print core a attrib w s).2)
    (print core (a ++ b) attrib w s)

section Results

variable (onScreen : w.OnScreen) (formed : w.Formed)
include onScreen formed

theorem splits_of_empty (empty : w.Empty) : Splits core w s := by
  intro a b attrib
  obtain ⟨s₁, fst, data₁⟩ := print_of_empty core attrib onScreen formed empty a s
  obtain ⟨s₂, snd, data₂⟩ := print_of_empty core attrib onScreen formed empty b s₁
  obtain ⟨s₃, whole, data₃⟩ := print_of_empty core attrib onScreen formed empty (a ++ b) s
  rw [fst, snd, whole]
  exact .of_empty empty (data₂.trans data₁) data₃

theorem invisible_of_empty (empty : w.Empty) : Invisible core w s := by
  intro ops
  have flushes : ∀ p : Stringbuffer × TextWindow × Screen, p.2.1 = w ∧ p.2.2.data = s.data →
      (flush core p).2.1 = w ∧ (flush core p).2.2.data = s.data := by
    rintro ⟨b, w', s'⟩ ⟨rfl, data⟩
    obtain ⟨s'', printed, data'⟩ := print_of_empty core (defaultAttrib core) onScreen formed empty
      b.contents s'
    unfold flush
    rw [printed]
    exact ⟨rfl, data'.trans data⟩
  obtain ⟨p, fed, bound, window, data⟩ := feed_keeps core (I := fun p _ => p.2.1 = w ∧ p.2.2.data = s.data)
    (fun _ _ _ _ holds => holds) (fun p _ holds => flushes p holds) ops
    (p := (.construct, w, s)) [] (show 0 < 80 by decide) ⟨rfl, rfl⟩
  obtain ⟨s', whole, data'⟩ := print_of_empty core (defaultAttrib core) onScreen formed empty
    ops.reduceOption s
  obtain ⟨window', data''⟩ := flushes p ⟨window, data⟩
  refine ⟨p, fed, bound, ?_⟩
  rw [whole, show (flush core p).2 = (w, (flush core p).2.2) from Prod.ext window' rfl]
  exact .of_empty empty data'' data'

variable (cells : ¬ w.Empty)
include cells

theorem invisible_of_continues (continues : w.Continues (w.position s)) : Invisible core w s := by
  intro ops
  have adds : ∀ (b : Stringbuffer) (d : TextWindow × Screen) (text : List UInt8) (c : UInt8),
      (∀ rest, print core (b.contents ++ rest) (defaultAttrib core) d.1 d.2 =
        print core (text ++ rest) (defaultAttrib core) w s) →
      ∀ rest, print core ((⟨fun i => if i = b.pos then c else b.buffer i, b.pos + 1⟩ : Stringbuffer).contents ++ rest)
        (defaultAttrib core) d.1 d.2 = print core (text ++ [c] ++ rest) (defaultAttrib core) w s := by
    intro b d text c holds rest
    rw [contents_push, List.append_assoc, List.append_assoc]
    exact holds _
  have flushes : ∀ (p : Stringbuffer × TextWindow × Screen) (text : List UInt8),
      (∀ rest, print core (p.1.contents ++ rest) (defaultAttrib core) p.2.1 p.2.2 =
        print core (text ++ rest) (defaultAttrib core) w s) →
      ∀ rest, print core ((flush core p).1.contents ++ rest) (defaultAttrib core) (flush core p).2.1 (flush core p).2.2 =
        print core (text ++ rest) (defaultAttrib core) w s := by
    intro p text holds rest
    have printed := holds []
    rw [List.append_nil, List.append_nil] at printed
    rw [flush, printed]
    exact (print_append onScreen formed cells continues text rest).symm
  obtain ⟨p, fed, bound, whole⟩ := feed_keeps core adds flushes ops (p := (.construct, w, s)) []
    (show 0 < 80 by decide) fun _ => rfl
  refine ⟨p, fed, bound, ?_⟩
  have printed := whole []
  rw [List.append_nil, List.append_nil, List.nil_append] at printed
  rw [flush, printed]
  exact ⟨fun _ _ _ => rfl, rfl⟩

theorem not_invisible (stuck : ¬ w.Continues (w.position s)) : ¬ Invisible core w s := by
  intro invisible
  obtain ⟨a, b, loses⟩ := exists_loses onScreen cells stuck
  obtain ⟨p, fed, -, same⟩ := invisible (a.map some ++ (none :: (b.map some ++ [])))
  obtain ⟨b₁, fst, contents₁⟩ := feed_short core (d := (w, s)) a (none :: (b.map some ++ []))
    (b := .construct) (by have := loses.short; unfold Stringbuffer.construct; dsimp only; omega)
  obtain ⟨b₂, snd, contents₂⟩ := feed_short core (d := (flush core (b₁, w, s)).2) b []
    (b := (flush core (b₁, w, s)).1) (by have := loses.short; unfold flush; dsimp only; omega)
  rw [fst, feed, snd, feed, Option.some.injEq] at fed
  subst fed
  have empty : (flush core (b₁, w, s)).1.contents = [] := rfl
  have none_ : Stringbuffer.construct.contents = [] := rfl
  rw [none_, List.nil_append] at contents₁
  rw [empty, List.nil_append] at contents₂
  have chars : (a.map some ++ (none :: (b.map some ++ []))).reduceOption = a ++ b := by
    simp [List.reduceOption, List.filterMap_append]
  rw [chars] at same
  refine loses.not_same core (defaultAttrib core) onScreen formed cells stuck ?_
  unfold flush at same
  dsimp only at same
  rw [contents₁] at same
  have contents : b₂.contents = b := by rw [contents₂]
  rw [contents] at same
  exact same

omit cells in
theorem splits_iff : Splits core w s ↔ w.Empty ∨ w.Continues (w.position s) := by
  refine ⟨fun splits => ?_, ?_⟩
  · by_contra stuck
    rw [not_or] at stuck
    obtain ⟨a, b, loses⟩ := exists_loses onScreen stuck.1 stuck.2
    exact loses.not_same core (defaultAttrib core) onScreen formed stuck.1 stuck.2 (splits a b (defaultAttrib core))
  · intro keeps a b attrib
    by_cases empty : w.Empty
    · exact splits_of_empty onScreen formed empty a b attrib
    · rw [print_append onScreen formed empty (keeps.resolve_left empty) a b]
      exact ⟨fun _ _ _ => rfl, rfl⟩

omit cells in
theorem invisible_iff : Invisible core w s ↔ w.Empty ∨ w.Continues (w.position s) := by
  refine ⟨fun invisible => ?_, ?_⟩
  · by_contra stuck
    rw [not_or] at stuck
    exact not_invisible onScreen formed stuck.1 stuck.2 invisible
  · intro keeps
    by_cases empty : w.Empty
    · exact invisible_of_empty onScreen formed empty
    · exact invisible_of_continues onScreen formed empty (keeps.resolve_left empty)

end Results

/-- The buffer of a stream cannot be seen exactly if its window has no cells or the next character
leaves the cursor in the window, which is also when a text may be printed in parts. -/
theorem buffering_iff (core : Nat) (w : TextWindow) (onScreen : w.OnScreen) (formed : w.Formed) (s : Screen) :
    (Invisible core w s ∧ Splits core w s ↔ w.Empty ∨ w.Continues (w.position s)) ∧
      (Invisible core w s ↔ Splits core w s) := by
  rw [invisible_iff onScreen formed, splits_iff onScreen formed]
  exact ⟨and_self_iff, Iff.rfl⟩

/-- The registers of a graphics controller whose cursor is at the first position. -/
def topLeft : Screen := ⟨fun _ => ⟨0, 0⟩, 0, fun _ => 0⟩

theorem buffering_whole : (Invisible 0 (construct 0 80 0 17 true 0 0) topLeft ∧
    Splits 0 (construct 0 80 0 17 true 0 0) topLeft ↔ (construct 0 80 0 17 true 0 0).Empty ∨
      (construct 0 80 0 17 true 0 0).Continues ((construct 0 80 0 17 true 0 0).position topLeft)) ∧
    (Invisible 0 (construct 0 80 0 17 true 0 0) topLeft ↔ Splits 0 (construct 0 80 0 17 true 0 0) topLeft) :=
  buffering_iff 0 _ ⟨by decide, by decide, by decide, by decide⟩ (fun software => by cases software) topLeft

/-- A window that starts elsewhere than the cursor of the hardware: five lines lead into it, but
not one line and then four. -/
theorem lines_are_lost : ¬ Same
    (print 0 (List.replicate 4 newline) 15 (print 0 [newline] 15 (construct 10 20 5 10 true 0 0) topLeft).1
      (print 0 [newline] 15 (construct 10 20 5 10 true 0 0) topLeft).2)
    (print 0 ([newline] ++ List.replicate 4 newline) 15 (construct 10 20 5 10 true 0 0) topLeft) ∧
    ¬ Invisible 0 (construct 10 20 5 10 true 0 0) topLeft := by
  have onScreen : (construct 10 20 5 10 true 0 0).OnScreen := ⟨by decide, by decide, by decide, by decide⟩
  refine ⟨fun same => absurd same.cursor (by decide), not_invisible onScreen (fun software => by cases software) ?_ ?_⟩
  · unfold TextWindow.Empty
    decide
  · unfold Continues
    decide

end TextStream
end MPStuBS
