import Mathlib.Algebra.Group.Nat.Defs

/-! Bounded copies of strings: `strncpy` of `utils/string.cc`. Addresses and sizes are 64 bits wide. -/
namespace MPStuBS.CString

abbrev Address := BitVec 64

/-- The address some bytes further on. -/
def Address.ahead (a : Address) (i : Nat) : Address := a + BitVec.ofNat 64 i

/-- Memory, and the addresses that were written so far. -/
structure State where
  byte : Address → UInt8
  written : List Address

def State.store (s : State) (dest : Address) (value : UInt8) : State :=
  ⟨fun a => if a = dest then value else s.byte a, s.written ++ [dest]⟩

/-- The first loop. Its condition counts down once more when it finds that nothing is left to count. -/
def copy (s : State) (dest src : Address) : Nat → State × Address × Nat
  | 0 => if s.byte src = 0 then (s, dest, 0) else (s, dest, 2 ^ 64 - 1)
  | n + 1 => if s.byte src = 0 then (s, dest, n + 1) else copy (s.store dest (s.byte src)) (dest + 1) (src + 1) n

/-- The second loop. -/
def pad (s : State) (dest : Address) : Nat → State
  | 0 => s
  | n + 1 => pad (s.store dest 0) (dest + 1) n

def strncpy (s : State) (dest src : Address) (n : BitVec 64) : Address × State :=
  if dest ≠ 0 ∧ src ≠ 0 then
    match copy s dest src n.toNat with
    | (s, next, n) => (dest, pad s next n)
  else (dest, s)

/-- A string starts at an address. -/
structure Text (byte : Address → UInt8) (src : Address) (length : Nat) : Prop where
  chars : ∀ i < length, byte (src.ahead i) ≠ 0
  ends : byte (src.ahead length) = 0

/-- Exactly the first bytes of the destination were written: the string, and zeros behind it. -/
structure Copied (byte : Address → UInt8) (dest src : Address) (length n : Nat) (after : State) : Prop where
  written : ∀ a, a ∈ after.written ↔ ∃ i < n, a = dest.ahead i
  bytes : ∀ i < n, after.byte (dest.ahead i) = if i < length then byte (src.ahead i) else 0

/-- The destination starts inside of the string, behind its first byte. -/
def Overwrites (dest src : Address) (length : Nat) : Prop := 1 ≤ (dest - src).toNat ∧ (dest - src).toNat ≤ length

/-- Stores values one after another. -/
def State.fill (s : State) (dest : Address) : List UInt8 → State
  | [] => s
  | value :: values => (s.store dest value).fill (dest + 1) values

variable {s : State} {dest src a : Address} {value : UInt8} {n length : Nat}

@[simp] theorem ahead_zero (a : Address) : a.ahead 0 = a := BitVec.add_zero a

theorem ahead_succ (a : Address) (i : Nat) : (a + 1).ahead i = a.ahead (i + 1) := by
  unfold Address.ahead
  bv_omega

theorem ahead_add_one (a : Address) (i : Nat) : a.ahead i + 1 = (a + 1).ahead i := by
  unfold Address.ahead
  bv_omega

theorem ahead_distance (a b : Address) : a.ahead (b - a).toNat = b := by
  unfold Address.ahead
  bv_omega

theorem ahead_sub {i : Nat} (small : i < 2 ^ 64) : (a.ahead i - a).toNat = i := by
  unfold Address.ahead
  bv_omega

/-- Offsets below the size of the memory lead to different addresses. -/
theorem ahead_inj {i j : Nat} (small : i < 2 ^ 64) (small' : j < 2 ^ 64) (same : a.ahead i = a.ahead j) :
    i = j := by
  unfold Address.ahead at same
  bv_omega

theorem store_same : (s.store dest value).byte dest = value := if_pos rfl

theorem store_other (apart : a ≠ dest) : (s.store dest value).byte a = s.byte a := if_neg apart

/-- A store of something other than zero makes no zero. -/
theorem store_ne_zero (nonzero : value ≠ 0) (was : s.byte a ≠ 0) : (s.store dest value).byte a ≠ 0 := by
  by_cases same : a = dest
  · rw [same, store_same]
    exact nonzero
  · rw [store_other same]
    exact was

theorem fill_append {values values' : List UInt8} :
    s.fill dest (values ++ values') = (s.fill dest values).fill (dest.ahead values.length) values' := by
  induction values generalizing s dest with
  | nil =>
    rw [List.length_nil, ahead_zero]
    rfl
  | cons value values ih =>
    rw [List.length_cons, ← ahead_succ]
    exact ih

theorem mem_fill {values : List UInt8} :
    a ∈ (s.fill dest values).written ↔ a ∈ s.written ∨ ∃ i < values.length, a = dest.ahead i := by
  induction values generalizing s dest with
  | nil => exact ⟨Or.inl, fun h => h.elim id fun ⟨_, less, _⟩ => absurd less (Nat.not_lt_zero _)⟩
  | cons value values ih =>
    unfold State.fill
    rw [ih]
    constructor
    · rintro (before | ⟨i, less, rfl⟩)
      · rcases List.mem_append.mp before with before | here
        · exact Or.inl before
        · exact Or.inr ⟨0, Nat.succ_pos _, (List.mem_singleton.mp here).trans (ahead_zero dest).symm⟩
      · exact Or.inr ⟨i + 1, Nat.succ_lt_succ less, ahead_succ dest i⟩
    · rintro (before | ⟨i, less, rfl⟩)
      · exact Or.inl (List.mem_append.mpr (Or.inl before))
      · cases i with
        | zero => exact Or.inl (List.mem_append.mpr (Or.inr (List.mem_singleton.mpr (ahead_zero dest))))
        | succ i => exact Or.inr ⟨i, Nat.lt_of_succ_lt_succ less, (ahead_succ dest i).symm⟩

theorem fill_other {values : List UInt8} (apart : ∀ i < values.length, a ≠ dest.ahead i) :
    (s.fill dest values).byte a = s.byte a := by
  induction values generalizing s dest with
  | nil => rfl
  | cons value values ih =>
    have first := apart 0 (Nat.succ_pos _)
    have rest := fun i less => ahead_succ dest i ▸ apart (i + 1) (Nat.succ_lt_succ less)
    exact (ih rest).trans (store_other (ahead_zero dest ▸ first))

theorem fill_byte {values : List UInt8} (small : values.length ≤ 2 ^ 64) {i : Nat} (less : i < values.length) :
    (s.fill dest values).byte (dest.ahead i) = values[i] := by
  induction values generalizing s dest i with
  | nil => exact absurd less (Nat.not_lt_zero _)
  | cons value values ih =>
    cases i with
    | zero =>
      have later : ∀ i < values.length, dest ≠ (dest + 1).ahead i := by
        intro i below same
        rw [ahead_succ] at same
        have zero := ahead_inj (by omega) (Nat.lt_of_lt_of_le (Nat.succ_lt_succ below) small) ((ahead_zero dest).trans same)
        omega
      rw [ahead_zero]
      exact (fill_other later).trans store_same
    | succ i =>
      rw [← ahead_succ]
      exact ih (Nat.le_of_succ_le small) (Nat.lt_of_succ_lt_succ less)

theorem pad_eq : pad s dest n = s.fill dest (List.replicate n 0) := by
  induction n generalizing s dest with
  | zero => rfl
  | succ n ih => exact ih

/-- The characters of a string in memory. -/
def chars (byte : Address → UInt8) (src : Address) (length : Nat) : List UInt8 := (List.range length).map fun i => byte (src.ahead i)

theorem chars_succ {byte : Address → UInt8} :
    chars byte src (length + 1) = byte src :: chars byte (src + 1) length := by
  unfold chars
  rw [List.range_succ_eq_map, List.map_cons, List.map_map, ahead_zero]
  refine congrArg _ (List.map_congr_left fun i _ => ?_)
  rw [ahead_succ]
  rfl

/-- A string that fits and is not overwritten is copied whole. -/
theorem copy_fits (text : Text s.byte src length) (fits : length ≤ n) (small : n < 2 ^ 64)
    (apart : ¬ Overwrites dest src length) :
    copy s dest src n = (s.fill dest (chars s.byte src length), dest.ahead length, n - length) := by
  induction length generalizing s dest src n with
  | zero =>
    have ends := text.ends
    rw [ahead_zero] at ends
    rw [ahead_zero]
    cases n with
    | zero => exact if_pos ends
    | succ n => exact if_pos ends
  | succ length ih =>
    obtain ⟨n, rfl⟩ := Nat.exists_eq_add_of_le' (Nat.le_trans (Nat.succ_pos _) fits)
    have first := text.chars 0 (Nat.succ_pos _)
    rw [ahead_zero] at first
    have kept : ∀ i ≤ length, (s.store dest (s.byte src)).byte ((src + 1).ahead i) = s.byte (src.ahead (i + 1)) := by
      intro i below
      rw [ahead_succ]
      refine store_other fun same => apart ?_
      have distance := ahead_sub (a := src) (i := i + 1) (by omega)
      rw [same] at distance
      exact ⟨by omega, by omega⟩
    have rest : Text (s.store dest (s.byte src)).byte (src + 1) length :=
      ⟨fun i less => by rw [kept i (Nat.le_of_lt less)]; exact text.chars (i + 1) (Nat.succ_lt_succ less),
        (kept length (Nat.le_refl _)).trans text.ends⟩
    have apart' : ¬ Overwrites (dest + 1) (src + 1) length := by
      unfold Overwrites at apart ⊢
      rw [show dest + 1 - (src + 1) = dest - src by bv_omega]
      omega
    have same : chars (s.store dest (s.byte src)).byte (src + 1) length = chars s.byte (src + 1) length :=
      List.map_congr_left fun i less => by
        rw [kept i (Nat.le_of_lt (List.mem_range.mp less)), ahead_succ]
    unfold copy
    rw [if_neg first, ih rest (Nat.le_of_succ_le_succ fits) (Nat.lt_of_succ_lt small) apart', same, chars_succ, ahead_succ,
      Nat.succ_sub_succ]
    rfl

/-- A loop that finds no end of the string before the count is used up leaves with the count wrapped around. -/
def RunsOut (s : State) (dest src : Address) (n : Nat) : Prop :=
  ∃ values, values.length = n ∧ copy s dest src n = (s.fill dest values, dest.ahead n, 2 ^ 64 - 1)

theorem runsOut_zero (more : s.byte src ≠ 0) : RunsOut s dest src 0 :=
  ⟨[], rfl, by rw [ahead_zero]; exact if_neg more⟩

theorem runsOut_succ (more : s.byte src ≠ 0) (rest : RunsOut (s.store dest (s.byte src)) (dest + 1) (src + 1) n) :
    RunsOut s dest src (n + 1) := by
  obtain ⟨values, rfl, copies⟩ := rest
  refine ⟨s.byte src :: values, rfl, ?_⟩
  unfold copy
  rw [if_neg more, copies, ahead_succ]
  rfl

theorem runsOut_of_long (long : ∀ i ≤ n, s.byte (src.ahead i) ≠ 0) : RunsOut s dest src n := by
  induction n generalizing s dest src with
  | zero =>
    have more := long 0 (Nat.le_refl _)
    rw [ahead_zero] at more
    exact runsOut_zero more
  | succ n ih =>
    have more := long 0 (Nat.zero_le _)
    rw [ahead_zero] at more
    refine runsOut_succ more (ih fun i below => store_ne_zero more ?_)
    rw [ahead_succ]
    exact long (i + 1) (Nat.succ_le_succ below)

/-- The end of a string that is overwritten is never found: what is stored ahead of the source is read again. -/
theorem runsOut_of_overwritten {further : Nat} (behind : dest = src.ahead further) (positive : 0 < further)
    (nonzero : ∀ i < further, s.byte (src.ahead i) ≠ 0) : RunsOut s dest src n := by
  have more := nonzero 0 positive
  rw [ahead_zero] at more
  induction n generalizing s dest src with
  | zero => exact runsOut_zero more
  | succ n ih =>
    have still : ∀ i < further, (s.store dest (s.byte src)).byte ((src + 1).ahead i) ≠ 0 := by
      intro i less
      rw [ahead_succ]
      by_cases last : i + 1 = further
      · rw [last, ← behind, store_same]
        exact more
      · exact store_ne_zero more (nonzero (i + 1) (by omega))
    have first := still 0 positive
    rw [ahead_zero] at first
    refine runsOut_succ more (ih ?_ still first)
    rw [behind, ahead_add_one]

theorem strncpy_eq (valid : dest ≠ 0) (source : src ≠ 0) (n : BitVec 64) : (strncpy s dest src n).2 =
    pad (copy s dest src n.toNat).1 (copy s dest src n.toNat).2.1 (copy s dest src n.toNat).2.2 := by
  unfold strncpy
  rw [if_pos ⟨valid, source⟩]

theorem strncpy_copied {byte : Address → UInt8} {n : BitVec 64} (text : Text byte src length) (valid : dest ≠ 0) (source : src ≠ 0)
    (fits : length ≤ n.toNat) (apart : ¬ Overwrites dest src length) :
    Copied byte dest src length n.toNat (strncpy ⟨byte, []⟩ dest src n).2 := by
  have size : (chars byte src length).length = length := by
    unfold chars
    rw [List.length_map, List.length_range]
  have whole : (chars byte src length ++ List.replicate (n.toNat - length) 0).length = n.toNat := by
    rw [List.length_append, size, List.length_replicate]
    omega
  rw [strncpy_eq valid source, copy_fits text fits n.isLt apart, pad_eq]
  dsimp only
  rw [show dest.ahead length = dest.ahead (chars byte src length).length by rw [size], ← fill_append]
  constructor
  · intro a
    rw [mem_fill, whole]
    exact or_iff_right List.not_mem_nil
  · intro i less
    rw [fill_byte (by omega) (by omega)]
    by_cases char : i < length
    · rw [if_pos char, List.getElem_append_left (by omega)]
      unfold chars
      rw [List.getElem_map, List.getElem_range]
    · rw [if_neg char, List.getElem_append_right (by omega), List.getElem_replicate]

/-- Where the count wraps around, the byte behind the destination is written. -/
theorem strncpy_runs_over {byte : Address → UInt8} {n : BitVec 64} (valid : dest ≠ 0) (source : src ≠ 0)
    (runsOut : RunsOut ⟨byte, []⟩ dest src n.toNat) :
    ¬ Copied byte dest src length n.toNat (strncpy ⟨byte, []⟩ dest src n).2 := by
  intro copied
  obtain ⟨values, size, copies⟩ := runsOut
  have written : dest.ahead n.toNat ∈ (strncpy ⟨byte, []⟩ dest src n).2.written := by
    rw [strncpy_eq valid source, copies, pad_eq]
    refine mem_fill.mpr (Or.inr ⟨0, ?_, (ahead_zero _).symm⟩)
    rw [List.length_replicate]
    exact show 0 < 2 ^ 64 - 1 by decide
  obtain ⟨i, less, same⟩ := (copied.written _).mp written
  exact Nat.ne_of_gt less (ahead_inj n.isLt (Nat.lt_trans less n.isLt) same)

/-- The copy is right exactly for strings that fit and that are not overwritten before their end. -/
theorem strncpy_iff (byte : Address → UInt8) (dest src : Address) (n : BitVec 64) (length : Nat)
    (text : Text byte src length) (valid : dest ≠ 0) (source : src ≠ 0) :
    Copied byte dest src length n.toNat (strncpy ⟨byte, []⟩ dest src n).2 ↔
      length ≤ n.toNat ∧ ¬ Overwrites dest src length := by
  constructor
  · intro copied
    constructor
    · refine Nat.le_of_not_lt fun long => strncpy_runs_over valid source ?_ copied
      exact runsOut_of_long fun i below => text.chars i (Nat.lt_of_le_of_lt below long)
    · rintro ⟨positive, inside⟩
      refine strncpy_runs_over valid source ?_ copied
      exact runsOut_of_overwritten (ahead_distance src dest).symm positive fun i less =>
        text.chars i (Nat.lt_of_lt_of_le less inside)
  · rintro ⟨fits, apart⟩
    exact strncpy_copied text valid source fits apart

/-- The characters `ab` at address 16. -/
def ab : Address → UInt8 := fun a => if a = 16 then 97 else if a = 17 then 98 else 0

theorem text_ab : Text ab 16 2 := by
  constructor <;> decide

/-- One byte of two characters. -/
theorem long_source_runs_over : Text ab 16 2 ∧ ¬ Copied ab 32 16 2 (1#64).toNat (strncpy ⟨ab, []⟩ 32 16 1).2 :=
  ⟨text_ab, strncpy_runs_over (by decide) (by decide) (runsOut_of_long (by decide))⟩

theorem strncpy_ab : Text ab 16 2 ∧ Copied ab 32 16 2 (4#64).toNat (strncpy ⟨ab, []⟩ 32 16 4).2 :=
  ⟨text_ab, (strncpy_iff ab 32 16 4 2 text_ab (by decide) (by decide)).mpr ⟨by decide, by unfold Overwrites; decide⟩⟩

end MPStuBS.CString
