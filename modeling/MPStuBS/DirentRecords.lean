import MPStuBS.FileReading

/-! The records of `Readdir_Context::dir_emit` in the bytes of the user's buffer. A record is 24
bytes with its fields, over the end of which the name is stored with a null byte behind it. -/
namespace MPStuBS

open Filesystem

namespace Bytes

variable {b c source : Bytes}

theorem splice_of_within {start size j : Nat} (low : start ≤ j) (high : j < start + size) :
    b.splice start size source j = source (j - start) := by
  simp [splice, low, high]

theorem splice_of_outside {start size j : Nat} (out : j < start ∨ start + size ≤ j) :
    b.splice start size source j = b j := by
  simp [splice, within_eq_false.mpr out]

theorem fill_of_outside {start size j : Nat} {value : UInt8} (out : j < start ∨ start + size ≤ j) :
    b.fill start size value j = b j := by
  simp [fill, within_eq_false.mpr out]

/-- A word that was copied. -/
theorem u32_of_copied {start k : Nat} (copied : ∀ j, k ≤ j → j < k + 4 → b (start + j) = source j) :
    b.u32 (start + k) = source.u32 k := by
  simp only [u32, Nat.add_assoc, copied k (by omega) (by omega), copied (k + 1) (by omega) (by omega),
    copied (k + 2) (by omega) (by omega), copied (k + 3) (by omega) (by omega)]

theorem u16_of_copied {start k : Nat} (copied : ∀ j, k ≤ j → j < k + 2 → b (start + j) = source j) :
    b.u16 (start + k) = source.u16 k := by
  simp only [u16, Nat.add_assoc, copied k (by omega) (by omega), copied (k + 1) (by omega) (by omega)]

/-- The C string in some bytes. -/
def cstring (b : Bytes) (start size : Nat) : List UInt8 := (take b start size).takeWhile (· != 0)

/-- `Dirent`, with the name as a C string. -/
def dirent (b : Bytes) (start : Nat) : Dirent where
  ino := b.u32 start + 4294967296 * b.u32 (start + 4)
  reclen := b.u16 (start + 16)
  type := (b (start + 18)).toNat
  name := b.cstring (start + 19) (b.u16 (start + 16) - 19)

/-- The records before the end, each found by the length of the one before it. -/
def direntsFrom (b : Bytes) (stop : Nat) : Nat → Nat → List Dirent
  | 0, _ => []
  | n + 1, start =>
    if stop ≤ start then [] else b.dirent start :: direntsFrom b stop n (start + (b.dirent start).reclen)

def dirents (b : Bytes) (size : Nat) : List Dirent := b.direntsFrom size size 0

theorem cstring_congr {start size : Nat} (same : ∀ j, start ≤ j → j < start + size → b j = c j) :
    b.cstring start size = c.cstring start size := by
  unfold cstring
  rw [take_eq_map, take_eq_map]
  refine congrArg _ (List.map_congr_left fun k inRange => same _ (Nat.le_add_right _ _) ?_)
  exact Nat.add_lt_add_left (List.mem_range.mp inRange) _

theorem dirent_congr {start stop : Nat} (same : ∀ j < stop, b j = c j) (inside : start + c.u16 (start + 16) ≤ stop)
    (header : start + 24 ≤ stop) : b.dirent start = c.dirent start := by
  have low : b.u32 start = c.u32 start := u32_congr fun j _ _ => same j (by omega)
  have high : b.u32 (start + 4) = c.u32 (start + 4) := u32_congr fun j _ _ => same j (by omega)
  have reclen : b.u16 (start + 16) = c.u16 (start + 16) := u16_congr fun j _ _ => same j (by omega)
  have name : b.cstring (start + 19) (c.u16 (start + 16) - 19) = c.cstring (start + 19) (c.u16 (start + 16) - 19) :=
    cstring_congr fun j _ _ => same j (by omega)
  unfold dirent
  rw [low, high, reclen, name, same (start + 18) (by omega)]

end Bytes

namespace Dirent

/-- The 24 bytes of the fields; `d_off` is 0. -/
def header (r : Dirent) : Bytes :=
  let zeroes : Bytes := fun _ => 0
  (((zeroes.setU32 0 r.ino).setU32 4 (r.ino >>> 32)).setU16 16 r.reclen).fill 18 1 (UInt8.ofNat r.type)

/-- The three copies of `dir_emit`. -/
def store (r : Dirent) (b : Bytes) (start : Nat) : Bytes :=
  let b := b.splice start sizeofDirent r.header
  let b := b.splice (start + 19) r.name.length fun i => r.name.getD i 0
  b.fill (start + 19 + r.name.length) 1 0

/-- The records one after the other. -/
def storeAll : List Dirent → Nat → Bytes → Bytes
  | [], _, b => b
  | r :: rest, start, b => storeAll rest (start + r.reclen) (r.store b start)

/-- The fields fit, and the length of the record leads behind its name and the null byte there. -/
structure WellSized (r : Dirent) : Prop where
  reclen : r.reclen = sizeofDirent + r.name.length + 1
  short : r.name.length ≤ 60
  ino : r.ino < 4294967296
  type : r.type < 256

/-- The record as it is read, with its name as a C string. -/
def read (r : Dirent) : Dirent := { r with name := r.name.takeWhile (· != 0) }

variable {r : Dirent} {b : Bytes} {start : Nat}

theorem store_of_outside (sized : WellSized r) {j : Nat} (out : j < start ∨ start + r.reclen ≤ j) :
    r.store b start j = b j := by
  have reclen := sized.reclen
  unfold sizeofDirent at reclen
  unfold store sizeofDirent
  rw [Bytes.fill_of_outside (by omega), Bytes.splice_of_outside (by omega), Bytes.splice_of_outside (by omega)]

theorem store_header {j : Nat} (low : j < 19) : r.store b start (start + j) = r.header j := by
  unfold store sizeofDirent
  rw [Bytes.fill_of_outside (by omega), Bytes.splice_of_outside (by omega),
    Bytes.splice_of_within (by omega) (by omega), Nat.add_sub_cancel_left]

theorem store_name {k : Nat} (inside : k < r.name.length) :
    r.store b start (start + 19 + k) = r.name.getD k 0 := by
  unfold store
  rw [Bytes.fill_of_outside (by omega), Bytes.splice_of_within (by omega) (by omega), Nat.add_sub_cancel_left]

theorem store_null : r.store b start (start + 19 + r.name.length) = 0 :=
  Bytes.fill_of_lt (Nat.le_refl _) (Nat.lt_succ_self _)

/-- The name ends at its null byte, whatever is behind that. -/
theorem cstring_store {size : Nat} (room : r.name.length < size) :
    (r.store b start).cstring (start + 19) size = r.name.takeWhile (· != 0) := by
  obtain ⟨rest, rfl⟩ := Nat.exists_eq_add_of_lt room
  have name : (List.range r.name.length).map (fun k => r.store b start (start + 19 + k)) = r.name := by
    refine List.ext_getElem (by simp) fun k inside inside' => ?_
    rw [List.getElem_map, List.getElem_range, store_name inside', List.getD_eq_getElem?_getD,
      List.getElem?_eq_getElem inside', Option.getD_some]
  unfold Bytes.cstring
  rw [take_eq_map, Nat.add_assoc, List.range_add, List.map_append, name, List.map_map, List.range_succ_eq_map,
    List.map_cons]
  simp only [Function.comp_apply, Nat.add_zero, store_null]
  rw [List.takeWhile_append]
  split
  · rename_i whole
    rw [List.takeWhile_cons_of_neg (by simp), List.append_nil]
    exact ((List.takeWhile_prefix _).eq_of_length whole).symm
  · rfl

/-- A record that was stored is read again. -/
theorem dirent_store (sized : WellSized r) : (r.store b start).dirent start = r.read := by
  obtain ⟨reclen, short, small, type⟩ := sized
  unfold sizeofDirent at reclen
  have low : (r.store b start).u32 start = r.ino := by
    have copied : (r.store b start).u32 (start + 0) = Bytes.u32 r.header 0 := Bytes.u32_of_copied fun j _ below =>
      store_header (show j < 19 by omega)
    rw [Nat.add_zero] at copied
    rw [copied]
    unfold header
    rw [Bytes.u32_congr fun j _ _ => Bytes.fill_of_outside (by omega),
      Bytes.u32_congr fun j _ _ => Bytes.setU16_of_outside (by omega), Bytes.u32_setU32_of_apart (by omega),
      Bytes.u32_setU32]
    omega
  have high : (r.store b start).u32 (start + 4) = 0 := by
    rw [Bytes.u32_of_copied fun j _ below => store_header (show j < 19 by omega)]
    unfold header
    rw [Bytes.u32_congr fun j _ _ => Bytes.fill_of_outside (by omega),
      Bytes.u32_congr fun j _ _ => Bytes.setU16_of_outside (by omega), Bytes.u32_setU32, Nat.shiftRight_eq_div_pow]
    omega
  have length : (r.store b start).u16 (start + 16) = r.reclen := by
    rw [Bytes.u16_of_copied fun j _ below => store_header (show j < 19 by omega)]
    unfold header
    rw [Bytes.u16_congr fun j _ _ => Bytes.fill_of_outside (by omega), Bytes.u16_setU16]
    omega
  have kind : (r.store b start (start + 18)).toNat = r.type := by
    rw [store_header (by omega)]
    unfold header
    rw [Bytes.fill_of_lt (by omega) (by omega), UInt8.toNat_ofNat']
    omega
  unfold Bytes.dirent read
  rw [low, high, length, kind, cstring_store (by omega), Nat.mul_zero, Nat.add_zero]

theorem storeAll_append (rs rs' : List Dirent) : ∀ start b,
    storeAll (rs ++ rs') start b = storeAll rs' (start + (rs.map reclen).sum) (storeAll rs start b) := by
  induction rs with
  | nil => exact fun start b => by simp [storeAll]
  | cons r rest ih =>
    intro start b
    rw [List.cons_append, storeAll, ih, storeAll, List.map_cons, List.sum_cons, Nat.add_assoc]

/-- What stands before the records stays. -/
theorem storeAll_of_lt {rs : List Dirent} (sized : ∀ r ∈ rs, WellSized r) : ∀ {start b j}, j < start →
    storeAll rs start b j = b j := by
  induction rs with
  | nil => exact fun _ => rfl
  | cons r rest ih =>
    intro start b j before
    rw [storeAll, ih (fun r member => sized r (.tail _ member)) (by omega),
      store_of_outside (sized r (.head _)) (.inl before)]

/-- A record is where the lengths of those before it lead. -/
theorem dirent_storeAll {rs rest : List Dirent} {r : Dirent} (sized : ∀ r' ∈ rs ++ r :: rest, WellSized r') (b : Bytes) :
    (storeAll (rs ++ r :: rest) 0 b).dirent (rs.map reclen).sum = r.read := by
  have here := sized r (by simp)
  have length := here.reclen
  unfold sizeofDirent at length
  have stored : (r.store (storeAll rs 0 b) (rs.map Dirent.reclen).sum).dirent (rs.map Dirent.reclen).sum = r.read :=
    dirent_store here
  have reclen : ((r.store (storeAll rs 0 b) (rs.map reclen).sum)).u16 ((rs.map Dirent.reclen).sum + 16) = r.reclen :=
    congrArg Dirent.reclen stored
  rw [storeAll_append, Nat.zero_add, storeAll, ← stored]
  refine Bytes.dirent_congr (fun j before => storeAll_of_lt (fun r' member => sized r' ?_) before) ?_ (by omega)
  · exact List.mem_append_right _ (.tail _ member)
  · rw [reclen]

theorem direntsFrom_storeAll (b : Bytes) {n : Nat} : ∀ {rs rest : List Dirent}, (∀ r ∈ rs ++ rest, WellSized r) →
    ((rs ++ rest).map reclen).sum ≤ (rs.map reclen).sum + n →
    (storeAll (rs ++ rest) 0 b).direntsFrom ((rs ++ rest).map reclen).sum n (rs.map reclen).sum = rest.map read := by
  induction n with
  | zero =>
    intro rs rest sized enough
    cases rest with
    | nil => rfl
    | cons r rest =>
      have length := (sized r (by simp)).reclen
      simp only [List.map_append, List.map_cons, List.sum_append, List.sum_cons] at enough
      omega
  | succ n ih =>
    intro rs rest sized enough
    cases rest with
    | nil => simp [Bytes.direntsFrom]
    | cons r rest =>
      have length := (sized r (by simp)).reclen
      have more : ¬ ((rs ++ r :: rest).map reclen).sum ≤ (rs.map reclen).sum := by
        simp only [List.map_append, List.map_cons, List.sum_append, List.sum_cons]
        omega
      have next : (rs.map reclen).sum + r.reclen = ((rs ++ [r]).map reclen).sum := by simp
      rw [Bytes.direntsFrom, if_neg more, dirent_storeAll sized, List.map_cons]
      refine congrArg _ ?_
      have later := @ih (rs ++ [r]) rest (by simpa using sized) (by
        simp only [List.map_append, List.map_cons, List.sum_append, List.sum_cons, List.append_assoc,
          List.cons_append, List.nil_append, List.map_nil, List.sum_nil] at enough ⊢
        omega)
      rw [List.append_assoc, List.cons_append, List.nil_append, ← next] at later
      exact later

/-- The lengths of the records lead from each to the next. -/
theorem dirents_storeAll {rs : List Dirent} (sized : ∀ r ∈ rs, WellSized r) (b : Bytes) :
    (storeAll rs 0 b).dirents (rs.map reclen).sum = rs.map read :=
  @direntsFrom_storeAll b _ [] rs sized (Nat.le_add_left _ _)

end Dirent
end MPStuBS
