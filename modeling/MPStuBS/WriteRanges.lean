import MPStuBS.IndexRanges
import MPStuBS.FileReading

/-! The calls that read or write at the position of an open file, and the entries of the block
tree that they use. -/
namespace MPStuBS

open Prog FsM

namespace Minix

variable {ptr : Nat} {s : Fs}

/-- The sizes of blocks that a volume can have. -/
def Sized (s : Fs) : Prop := 9 ≤ s.blocksizeBits ∧ s.blocksizeBits ≤ 12

theorem Sized.small (sized : Sized s) : s.indirCount ≤ 2147483648 :=
  Nat.le_trans (Nat.pow_le_pow_right (n := 2) (j := 10) (by omega) (by have := sized.2; omega)) (by omega)

/-- `get_block` uses an entry out of range only for a block that has no path, and for such a block
it does not succeed. -/
theorem getBlock_ranged (block : Nat) (sized : Sized s) : (getBlock ptr block true).Safe
    (fun f => f = .outOfBounds → ¬ Addressed s.indirCount block)
    (fun r s' => s.Quiet s' ∧ ∀ z, r = .ok z → Addressed s.indirCount block) s := by
  have positive : 0 < s.indirCount := Nat.two_pow_pos _
  by_cases addressed : Addressed s.indirCount block
  · refine (((avoids_getBlock positive sized.small addressed s rfl).and
      (quiet_getBlock ptr block true s)).mono ?_).allow ?_
    · exact fun r s' got => ⟨got.2, fun _ _ => addressed⟩
    · exact fun f other eq => absurd eq other
  · refine Always.safe (fun _ _ => addressed) (((getBlock_refuses sized.small addressed).and
      (quiet_getBlock ptr block true s)).mono ?_)
    rintro r s' ⟨⟨e, rfl⟩, quiet⟩
    exact ⟨quiet, fun z eq => by cases eq⟩

/-- The last block that a number can name has no path. -/
theorem not_addressed_last (sized : Sized s) : ¬ Addressed s.indirCount 18446744073709551615 := by
  obtain ⟨low, high⟩ := sized
  unfold Fs.indirCount
  interval_cases s.blocksizeBits <;> decide

end Minix

namespace Filesystem

open Minix

variable {ptr : Nat} {s : Fs} {fits : Prop}

/-- The faults that are left when everything is in range. -/
def Unless (fits : Prop) (f : FsFault) : Prop := f = .outOfBounds → ¬ fits

/-- One block is written in the loops that fill a file. -/
theorem step_ranged {α : Type} {post : Except Errno α → Fs → Prop} {block : Nat} {edit : Bytes → Bytes}
    {rest : FsM (Except Errno α)} (sized : Sized s) (within : fits → Addressed s.indirCount block)
    (failed : ∀ e s', s.Quiet s' → post (.error e) s')
    (next : Addressed s.indirCount block → ∀ s', s.Quiet s' → rest.Safe (Unless fits) post s') :
    Safe (Unless fits) (do
      match ← getBlock ptr block true with
      | .error e => Pure.pure (Except.error e)
      | .ok blockno => do
        match ← fix blockno with
        | .error e => Pure.pure (Except.error e)
        | .ok b => do
          let bytes ← load b
          store b (edit bytes)
          markDirty b
          unfix b
          rest) post s := by
  refine safe_bind.mpr (((getBlock_ranged block sized).allow ?_).mono ?_)
  · exact fun f allowed eq fit => allowed eq (within fit)
  rintro r s' ⟨quiet, mapped⟩
  cases r with
  | error e => exact failed e s' quiet
  | ok blockno =>
    refine safe_bind.mpr fun r => ?_
    cases r with
    | error e => exact failed e s' quiet
    | ok b =>
      refine safe_bind.mpr fun bytes => ?_
      cases bytes with
      | none => exact fun eq => by cases eq
      | some bytes => exact next (mapped blockno rfl) s' quiet

/-- The block of every byte has a path. -/
def Fits (s : Fs) (start stop : Int) : Prop :=
  ∀ p, start ≤ p → p < stop → Addressed s.indirCount (u64 (p / s.blocksize))

section Positions

variable {b x k : Int}

theorem ediv_add_of_lt (positive : 0 < b) (nonneg : 0 ≤ k) (inBlock : x % b + k < b) : (x + k) / b = x / b := by
  have whole : x + k = x % b + k + b * (x / b) := by
    have := Int.emod_add_mul_ediv x b
    omega
  rw [whole, Int.add_mul_ediv_left _ _ (by omega), Int.ediv_eq_zero_of_lt, Int.zero_add]
  · have := Int.emod_nonneg x (by omega : b ≠ 0)
    omega
  · exact inBlock

/-- The position after the last byte of a block. -/
theorem ediv_add_of_eq (positive : 0 < b) (whole : x % b + k = b) : (x + k) / b = x / b + 1 ∧ (x + k) % b = 0 := by
  have split : x + k = b * (x / b + 1) := by
    have := Int.emod_add_mul_ediv x b
    rw [Int.mul_add, Int.mul_one]
    omega
  rw [split]
  exact ⟨Int.mul_ediv_cancel_left _ (by omega), Int.mul_emod_right _ _⟩

theorem u64_add_one (notLast : u64 x ≠ 18446744073709551615) : u64 (x + 1) = u64 x + 1 := by
  unfold u64 at *
  omega

end Positions

theorem blocksize_pos (s : Fs) : (0 : Int) < s.blocksize := by
  have := Nat.two_pow_pos s.blocksizeBits
  unfold Fs.blocksize
  omega

/-- A block is filled up from `x` on. -/
theorem fits_step {start x : Int} {k : Nat} (done : Fits s start x)
    (addressed : Addressed s.indirCount (u64 (x / s.blocksize))) (inBlock : x % s.blocksize + k ≤ s.blocksize) :
    Fits s start (x + k) := by
  intro p late early
  by_cases before : p < x
  · exact done p late before
  · obtain ⟨j, rfl⟩ : ∃ j : Int, p = x + j := ⟨p - x, by omega⟩
    rw [ediv_add_of_lt (blocksize_pos s) (by omega) (by omega)]
    exact addressed

/-- The place in the block after one that was filled to its end. -/
theorem place_step {x : Int} {k : Nat} (sized : Sized s)
    (addressed : Addressed s.indirCount (u64 (x / s.blocksize))) (whole : x % s.blocksize + k = s.blocksize) :
    u64 (x / s.blocksize) + 1 = u64 ((x + k) / s.blocksize) ∧ 0 = u64 ((x + k) % s.blocksize) := by
  obtain ⟨quotient, remainder⟩ := ediv_add_of_eq (blocksize_pos s) whole
  rw [quotient, remainder, u64_add_one]
  · exact ⟨rfl, rfl⟩
  · intro last
    exact not_addressed_last sized (last ▸ addressed)

theorem u64_emod (x : Int) (sized : Sized s) : (u64 (x % s.blocksize) : Int) = x % s.blocksize := by
  have small : s.blocksize ≤ 4096 := Nat.pow_le_pow_right (n := 2) (j := 12) (by omega) sized.2
  have low := Int.emod_nonneg x (Int.ne_of_gt (blocksize_pos s))
  have high := Int.emod_lt_of_pos x (blocksize_pos s)
  unfold u64
  omega

theorem writeLoop_ranged {pos : Int} {buf : List UInt8} (fuel : Nat) :
    ∀ {s : Fs} {block offset written : Nat}, Sized s →
      (written < buf.length → block = u64 ((pos + written) / s.blocksize) ∧
        offset = u64 ((pos + written) % s.blocksize)) →
      written ≤ buf.length → Fits s pos (pos + written) →
      (writeLoop ptr buf fuel block offset written).Safe (Unless (Fits s pos (pos + buf.length)))
        (fun r s' => s.Quiet s' ∧ ∀ n, r = .ok n → Fits s pos (pos + buf.length)) s := by
  induction fuel with
  | zero => exact fun _ _ _ _ eq => by cases eq
  | succ fuel ih =>
    intro s block offset written sized place short done
    refine safe_bind.mpr ?_
    change Safe _ (if buf.length ≤ written then _ else _) _ s
    split
    · rename_i all
      obtain rfl : written = buf.length := Nat.le_antisymm short all
      exact ⟨refl_of Fs.Quiet s, fun _ _ => done⟩
    rename_i more
    obtain ⟨rfl, rfl⟩ := place (Nat.not_le.mp more)
    refine step_ranged sized ?_ (fun e s' quiet => ⟨quiet, fun n eq => by cases eq⟩) fun addressed s' quiet => ?_
    · exact fun fits => fits _ (by omega) (by omega)
    have same := quiet
    obtain ⟨inodes, rfl, kept⟩ := same
    have inBlock := u64_emod (pos + written) sized
    have less := Int.emod_lt_of_pos (pos + written) (blocksize_pos s)
    set n := min (s.blocksize - u64 ((pos + written) % s.blocksize)) (buf.length - written) with nDef
    have upTo := fits_step (k := n) done addressed (by omega)
    refine (ih (s := { s with inodes := inodes }) sized ?_ (by omega) ?_).mono ?_
    · intro moreLeft
      rw [Nat.cast_add, ← Int.add_assoc]
      exact place_step sized addressed (by omega)
    · rw [Nat.cast_add, ← Int.add_assoc]
      exact upTo
    · exact fun r s' got => ⟨trans_of Fs.Quiet quiet got.1, got.2⟩

theorem punchLoop_ranged {start stop : Int} (fuel : Nat) :
    ∀ {s : Fs} {block offset : Nat} {x : Int}, Sized s →
      (x < stop → block = u64 (x / s.blocksize) ∧ offset = u64 (x % s.blocksize)) → start ≤ x → x ≤ stop →
      Fits s start x → (punchLoop ptr stop fuel block offset x).Safe (Unless (Fits s start stop))
        (fun r s' => s.Quiet s' ∧ (r = .ok () → Fits s start stop)) s := by
  induction fuel with
  | zero => exact fun _ _ _ _ _ eq => by cases eq
  | succ fuel ih =>
    intro s block offset x sized place late short done
    refine safe_bind.mpr ?_
    change Safe _ (if stop ≤ x then _ else _) _ s
    split
    · rename_i all
      obtain rfl : x = stop := Int.le_antisymm short all
      exact ⟨refl_of Fs.Quiet s, fun _ => done⟩
    rename_i more
    obtain ⟨rfl, rfl⟩ := place (Int.not_le.mp more)
    refine step_ranged sized ?_ (fun e s' quiet => ⟨quiet, fun eq => by cases eq⟩) fun addressed s' quiet => ?_
    · exact fun fits => fits _ late (by omega)
    have same := quiet
    obtain ⟨inodes, rfl, kept⟩ := same
    have inBlock := u64_emod x sized
    have less := Int.emod_lt_of_pos x (blocksize_pos s)
    set n := min (s.blocksize - u64 (x % s.blocksize)) (stop - x).toNat with nDef
    have upTo := fits_step (k := n) done addressed (by omega)
    refine (ih (s := { s with inodes := inodes }) sized ?_ (by omega) (by omega) upTo).mono ?_
    · intro moreLeft
      exact place_step sized addressed (by omega)
    · exact fun r s' got => ⟨trans_of Fs.Quiet quiet got.1, got.2⟩

theorem fits_empty (s : Fs) (x : Int) : Fits s x x := fun p late early => by omega

theorem write_ranged {pos : Int} {buf : List UInt8} (sized : Sized s) : (write ptr buf pos).Safe
    (Unless (Fits s pos (pos + buf.length)))
    (fun r s' => s.Quiet s' ∧ ∀ n, r = .ok n → Fits s pos (pos + buf.length)) s := by
  refine safe_bind.mpr ?_
  change (writeLoop ptr buf (buf.length + 1) (u64 (pos / s.blocksize)) (u64 (pos % s.blocksize)) 0).Safe _ _ s
  refine writeLoop_ranged _ sized ?_ (Nat.zero_le _) ?_
  · simp
  · simpa using fits_empty s pos

theorem punchHole_ranged {start stop : Int} (more : start < stop) (sized : Sized s) :
    (punchHole ptr start stop).Safe (Unless (Fits s start stop))
      (fun r s' => s.Quiet s' ∧ (r = .ok () → Fits s start stop)) s := by
  refine safe_bind.mpr ?_
  change (punchLoop ptr stop _ (u64 (start / s.blocksize)) (u64 (start % s.blocksize)) start).Safe _ _ s
  exact punchLoop_ranged _ sized (fun _ => ⟨rfl, rfl⟩) (Int.le_refl _) (Int.le_of_lt more) (fits_empty s start)

end Filesystem

namespace VFS

open Filesystem

/-- The call returns an error, or has come to restoring the size of the file before it does. -/
inductive Fails (disk : Disk Errno) {α : Type} : FsM (Except Errno α) → World Fs → Prop
  | returns {p : FsM (Except Errno α)} {e : Errno} {w w' : World Fs} (ran : p.run disk w = .ok (.error e, w')) :
      Fails disk p w
  | restores {ptr : Nat} {size : Int} {e : Errno} {w : World Fs} :
      Fails disk (do
        Minix.truncate ptr size
        Pure.pure (Except.error e)) w
  | later {β : Type} {p : FsM β} {f : β → FsM (Except Errno α)} {a : β} {w w' : World Fs}
      (ran : p.run disk w = .ok (a, w')) (fails : Fails disk (f a) w') : Fails disk (p >>= f) w

/-- A call that does not fail is in range where it returns and out of range where it uses an entry
that does not exist. -/
def Ranged (disk : Disk Errno) {α : Type} (fits : Prop) (p : FsM (Except Errno α)) (w : World Fs) : Prop :=
  ¬ Fails disk p w → (p.run disk w = .error .outOfBounds → ¬ fits) ∧ ∀ r w', p.run disk w = .ok (r, w') → fits

variable {disk : Disk Errno} {α β : Type} {fits : Prop} {w : World Fs}

theorem Ranged.bind {p : FsM β} {f : β → FsM (Except Errno α)} (first : p.run disk w = .error .outOfBounds → ¬ fits)
    (rest : ∀ a w', p.run disk w = .ok (a, w') → Ranged disk fits (f a) w') : Ranged disk fits (p >>= f) w := by
  intro passes
  constructor
  · intro faulted
    rcases run_bind_error faulted with early | ⟨a, w', ran, later⟩
    · exact first early
    · exact (rest a w' ran fun fails => passes (.later ran fails)).1 later
  · intro r w' returned
    obtain ⟨a, w₁, ran, later⟩ := run_bind_ok returned
    exact (rest a w₁ ran fun fails => passes (.later ran fails)).2 r w' later

theorem Ranged.step {p : FsM β} {f : β → FsM (Except Errno α)} {a : β} {w' : World Fs}
    (ran : p.run disk w = .ok (a, w')) (rest : Ranged disk fits (f a) w') : Ranged disk fits (p >>= f) w := by
  refine .bind (fun faulted => ?_) fun a' w'' ran' => ?_
  · rw [ran] at faulted
    cases faulted
  · rw [ran] at ran'
    cases ran'
    exact rest

theorem Ranged.congr {fits' : Prop} {p : FsM (Except Errno α)} (same : fits ↔ fits') (ranged : Ranged disk fits p w) :
    Ranged disk fits' p w := fun passes =>
  ⟨fun faulted fit => (ranged passes).1 faulted (same.mpr fit), fun r w' ran => same.mp ((ranged passes).2 r w' ran)⟩

theorem Ranged.error {e : Errno} : Ranged disk fits (Pure.pure (Except.error e) : FsM (Except Errno α)) w :=
  fun passes => absurd (.returns rfl) passes

theorem Ranged.restore {ptr : Nat} {size : Int} {e : Errno} : Ranged disk fits (do
    Minix.truncate ptr size
    Pure.pure (Except.error e) : FsM (Except Errno α)) w :=
  fun passes => absurd .restores passes

/-- What is left to do when everything was in range. -/
theorem Ranged.rest {p : FsM (Except Errno α)} {n : Nat} (fit : fits) (avoids : Avoids n p fun _ => True)
    (count : w.state.indirCount = n) : Ranged disk fits p w := fun _ =>
  ⟨fun faulted => absurd faulted ((avoids w.state count).run_ne fun other => other rfl), fun _ _ _ => fit⟩

theorem safe_first {p : FsM β} {post : β → Fs → Prop} (safe : p.Safe (Unless fits) post w.state) :
    p.run disk w = .error .outOfBounds → ¬ fits := by
  intro faulted
  have meets : Meets disk (Unless fits) p _ w := safe.meets
  unfold Meets at meets
  rw [faulted] at meets
  exact meets rfl

theorem safe_returned {p : FsM β} {post : β → Fs → Prop} (safe : p.Safe (Unless fits) post w.state) {a : β} {w' : World Fs}
    (ran : p.run disk w = .ok (a, w')) : post a w'.state := by
  have meets : Meets disk (Unless fits) p _ w := safe.meets
  exact meets.of_run ran

theorem avoids_setPos {n : Nat} (file : File) (pos : Int) : Avoids n (setPos file pos) fun _ => True :=
  Avoids.get.bind fun _ count _ _ => ⟨count, trivial⟩

theorem writeFile_ranged {file : File} {buf : List UInt8} {size : Int} (sized : Minix.Sized w.state) :
    Ranged disk (Fits w.state file.pos (file.pos + buf.length)) (writeFile file buf size) w := by
  have safe := @Filesystem.write_ranged file.inode w.state file.pos buf sized
  refine Ranged.bind (safe_first safe) fun r w' ran => ?_
  obtain ⟨-, fit⟩ := safe_returned safe ran
  cases r with
  | error e => exact .restore
  | ok n =>
    refine .rest (fit n rfl) ?_ rfl
    refine (avoids_setPos _ _).bind fun _ _ => Avoids.inode.bind fun i _ => .ite ?_ ?_
    · exact fun _ => Avoids.setInode.bind fun _ _ => Avoids.setInode.bind fun _ _ => .pure trivial
    · exact fun _ => .pure trivial

/-- The block of every byte that is written has a path, from the end of the file on if the position
lies behind it. -/
def InRange (s : Fs) (size pos : Int) (buf : List UInt8) : Prop :=
  buf = [] ∨ Fits s (min size pos) (pos + (buf.take ssizeMax).length)

/-- The hole before the position, and what is written there. -/
theorem fits_hole {s : Fs} {size pos : Int} {n : Nat} (gap : size < pos) :
    Fits s (min size pos) (pos + n) ↔ Fits s size pos ∧ Fits s pos (pos + n) := by
  rw [min_eq_left (Int.le_of_lt gap)]
  constructor
  · intro all
    exact ⟨fun p late early => all p late (by omega), fun p late early => all p (by omega) early⟩
  · rintro ⟨hole, rest⟩ p late early
    by_cases before : p < pos
    · exact hole p late before
    · exact rest p (Int.not_lt.mp before) early

theorem write_ranged {fd : Int} {file : File} {buf : List UInt8} (opened : w.state.fdTable.getFile fd = some file)
    (valid : ValidInode w.state (w.state.inodes file.inode)) :
    Ranged disk (InRange w.state (w.state.inodes file.inode).size file.pos buf) (write fd buf) w := by
  have sized : Minix.Sized w.state := valid.blocksize
  unfold write
  split
  · rename_i empty
    exact .rest (.inl empty) (.pure trivial) rfl
  rename_i some
  have inRange : InRange w.state (w.state.inodes file.inode).size file.pos buf ↔
      Fits w.state (min (w.state.inodes file.inode).size file.pos) (file.pos + (buf.take ssizeMax).length) :=
    or_iff_right some
  refine Ranged.step (a := w.state.fdTable.getFile fd) rfl ?_
  rw [opened]
  dsimp only
  split
  · exact .error
  have here : Returns disk (inode file.inode) (fun i w' => i = w.state.inodes file.inode ∧ w = w') w :=
    (meets_inode valid.live).mpr ⟨rfl, rfl⟩
  obtain ⟨i, w', ran, rfl, rfl⟩ := here.run
  refine Ranged.step ran ?_
  split
  · exact .error
  split
  · rename_i gap
    -- the hole before the position is filled first
    rw [fits_hole gap] at inRange
    have safe := @punchHole_ranged file.inode w.state _ file.pos gap sized
    refine Ranged.bind (fun faulted fit => safe_first safe faulted (inRange.mp fit).1) fun r w₁ filled => ?_
    obtain ⟨⟨inodes, state, -⟩, hole⟩ := safe_returned safe filled
    cases r with
    | error e => exact .restore
    | ok u =>
      have fits : Fits w₁.state file.pos (file.pos + (buf.take ssizeMax).length) ↔
          InRange w.state (w.state.inodes file.inode).size file.pos buf := by
        rw [inRange, and_iff_right (hole rfl), state]
        rfl
      refine (writeFile_ranged ?_).congr fits
      rw [state]
      exact sized
  · rename_i noGap
    rw [min_eq_right (Int.not_lt.mp noGap)] at inRange
    exact (writeFile_ranged sized).congr inRange.symm

theorem Fails.not_returned {p : FsM (Except Errno α)} {a : α} {w w' : World Fs} (fails : Fails disk p w) :
    p.run disk w ≠ .ok (.ok a, w') := by
  induction fails with
  | returns ran =>
    rw [ran]
    rintro ⟨⟩
  | restores =>
    intro ran
    obtain ⟨_, w₁, -, rest⟩ := run_bind_ok ran
    cases rest
  | later ran fails ih => rwa [run_bind_of ran]

theorem read_returns {fd : Int} {file : File} (opened : w.state.fdTable.getFile fd = some file)
    (valid : ValidInode w.state (w.state.inodes file.inode)) (low : -9223372036854775808 ≤ file.pos)
    (high : file.pos < 9223372036854775808) (count : Nat) : Returns disk (read fd count) (fun _ _ => True) w := by
  unfold read
  split
  · exact True.intro
  simp only [getFile, meets_bind, meets_get, meets_pure, opened]
  split
  · exact True.intro
  refine meets_bind.mpr ((meets_inode valid.live).mpr ?_)
  split
  · exact True.intro
  refine meets_bind.mpr ?_
  by_cases nonneg : 0 ≤ file.pos
  · obtain ⟨pos, eq⟩ := Int.eq_ofNat_of_zero_le nonneg
    rw [eq]
    refine (read_reads valid (by omega)).mono fun r w' _ => ?_
    cases r <;> exact True.intro
  · -- a negative position lies behind the end of every file
    have small := valid.bounds
    have size := valid.size
    have ended : u64 (w.state.inodes file.inode).size ≤ u64 (file.pos + ([] : List UInt8).length) := by
      unfold u64
      simp only [List.length_nil]
      omega
    unfold Filesystem.read
    simp only [readLoop, meets_bind, meets_get, meets_inode valid.live]
    rw [if_pos (Or.inr ended)]
    exact True.intro

section Images

open SmallImage

/-- The empty file `f` is open, at the position. -/
def openedAt (pos : Int) : World Fs :=
  match session ⟨false, neverFails⟩ withFile [.mount 10 .all, .open nameF Flags.rdwr, .lseek 0 pos .set] with
  | .ok (_, w) => w
  | .error _ => .initial withFile

/-- Far before the file the index is cut to one that is in range. -/
example : Minix.Addressed 256 (u64 (-288230375748789248 / 1024)) := by decide

end Images

end VFS

end MPStuBS
