import MPStuBS.DirectoryStreams
import MPStuBS.PathResolution
import MPStuBS.ProgramParts
import MPStuBS.TreeCalls

/-! Successive calls of `getdents`, and of `readdir`, list a whole directory. -/
namespace MPStuBS.VFS

open Prog FsM Minix Filesystem
open Dirent (WellSized)

variable {disk : Disk Errno} {allowed : FsFault → Prop} {t : SlotTree} {known : Nat → Prop} {w w' : World Fs}
  {view view' : Nat → Bytes} {slots : List (PathName × Nat)} {fd : Int} {a o : Nat}

/-- A directory with these slots is open under the descriptor, which is at one of them. -/
structure OpenAt (disk : Disk Errno) (t : SlotTree) (known : Nat → Prop) (slots : List (PathName × Nat)) (fd : Int)
    (o a : Nat) (w : World Fs) (view : Nat → Bytes) : Prop where
  pictured : Pictures disk t w view
  linked : Linked known w view
  anchored : Anchored w
  directory : Directory w view o slots
  file : ∃ file, w.state.fdTable.getFile fd = some file ∧ file.inode = o ∧ file.pos = (64 * a : Nat)
  inside : a ≤ slots.length

/-- Nothing was done but to read. -/
structure Reads (w w' : World Fs) : Prop where
  goes : GoesOn w w' []
  files : w.state.fdTable.SameOpen w'.state.fdTable

theorem Reads.refl (w : World Fs) : Reads w w := ⟨Goes.refl _, .refl _⟩

section Getdents

theorem Directory.withFiles (directory : Directory w view o slots) (table : FdTable) :
    Directory (withFiles w table) view o slots := by
  have same : SameBlocks w.state (VFS.withFiles w table).state view view _ _ _ _ :=
    (recounts_withFiles w table).sameBlocks ((recounts_withFiles w table).sameFile o)
  refine ⟨same.onDisk directory.toOnDisk, directory.cached, directory.used, directory.mode, directory.whole, ?_⟩
  rw [same.slotsOf directory.toOnDisk]
  exact directory.slots

variable (reliable : Reliable disk) (isKnown : ∀ slot ∈ slots, slot.2 ≠ 0 → known slot.2)
include reliable isKnown

theorem getdents_next {count : Int} (room : 85 < count) (opened : OpenAt disk t known slots fd o a w view) :
    Meets disk allowed (getdents fd count) (fun r w' => ∃ rs m view', r = .ok ((rs.map Dirent.reclen).sum, rs) ∧
      Returned slots a m rs ∧ OpenAt disk t known slots fd o (a + m) w' view' ∧ Reads w w') w := by
  obtain ⟨pictured, linked, anchored, directory, ⟨file, found, rfl, pos⟩, inside⟩ := opened
  refine (getdents_lists reliable pictured linked anchored isKnown found directory pos inside room).mono ?_
  rintro r w' ⟨rs, m, w₁, view₁, table, rfl, returned, browses, rfl, found', files⟩
  have recounts := recounts_withFiles w₁ table
  refine ⟨rs, m, view₁, rfl, returned, ⟨recounts.pictures browses.pictured, recounts.linked browses.linked,
    browses.anchored anchored, ?_, ⟨_, found', rfl, rfl⟩, returned.inside⟩, browses.goes.on table, files⟩
  exact (directory.browsed browses).withFiles table

end Getdents

section Parts

variable {l listed : List (PathName × Nat)} {rs : List Dirent} {parts : List (List Dirent)}

/-- What successive calls have listed: the entries in their order, and nothing only when all were
listed. In the buffer of each call the lengths of the records lead from each to the next. -/
structure Listed (l : List (PathName × Nat)) (parts : List (List Dirent)) : Prop where
  order : parts.flatten.map entryOf <+: l
  ends : ∀ before rs after, parts = before ++ rs :: after → (rs = [] ↔ before.flatten.map entryOf = l)
  stored : ∀ rs ∈ parts, ∀ buf, (Dirent.storeAll rs 0 buf).dirents (rs.map Dirent.reclen).sum = rs.map Dirent.read

theorem Listed.nil : Listed l [] := ⟨List.nil_prefix, by simp, by simp⟩

theorem Listed.cons (sized : ∀ r ∈ rs, WellSized r) (entries : rs.map entryOf = listed) (more : rs = [] → l = [])
    (rest : Listed l parts) : Listed (listed ++ l) (rs :: parts) := by
  subst entries
  refine ⟨?_, fun before rs' after split => ?_, fun rs' member buf => ?_⟩
  · rw [List.flatten_cons, List.map_append]
    exact (List.prefix_append_right_inj _).mpr rest.order
  · cases before with
    | nil =>
      obtain ⟨rfl, -⟩ := List.cons.inj split
      constructor
      · rintro rfl
        simp [more rfl]
      · intro none
        have none' := List.append_eq_nil_iff.mp none.symm
        exact List.map_eq_nil_iff.mp none'.1
    | cons first before =>
      obtain ⟨rfl, rfl⟩ := List.cons.inj split
      rw [rest.ends before rs' after rfl, List.flatten_cons, List.map_append, List.append_cancel_left_eq]
  · rcases List.mem_cons.mp member with rfl | member
    · exact Dirent.dirents_storeAll sized buf
    · exact rest.stored rs' member buf

/-- As many calls as there are entries list all of them. -/
theorem Listed.all (parted : Listed l parts) (enough : l.length ≤ parts.length) : parts.flatten.map entryOf = l := by
  by_cases none : [] ∈ parts
  · obtain ⟨before, after, split⟩ := List.append_of_mem none
    have whole := (parted.ends before [] after split).mp rfl
    refine parted.order.eq_of_length_le ?_
    rw [split, List.flatten_append, List.map_append, whole, List.length_append]
    exact Nat.le_add_right _ _
  · refine parted.order.eq_of_length_le ?_
    have nonempty : ∀ n ∈ parts.map List.length, 1 ≤ n := by
      intro n length
      obtain ⟨rs, member, rfl⟩ := List.mem_map.mp length
      refine List.length_pos_of_ne_nil fun empty => ?_
      exact none (empty ▸ member)
    have length := List.length_le_sum_of_one_le _ nonempty
    rw [List.length_map, List.length_flatten]
    rw [List.length_map] at length
    exact enough.trans length

end Parts

section Calls

theorem live_drop (slots : List (PathName × Nat)) (a m : Nat) :
    live (slots.drop a) = live ((slots.drop a).take m) ++ live (slots.drop (a + m)) := by
  rw [← live_append, ← List.drop_drop, List.take_append_drop]

variable (reliable : Reliable disk) (isKnown : ∀ slot ∈ slots, slot.2 ≠ 0 → known slot.2)
include reliable isKnown

theorem getdents_listed (counts : List Int) : ∀ {a w view}, (∀ count ∈ counts, 85 < count) →
    OpenAt disk t known slots fd o a w view → Meets disk allowed (calls (counts.map (Op.getdents fd)))
      (fun results _ => ∃ parts : List (List Dirent), parts.length = counts.length ∧
        results = parts.map (fun rs => .ok (.dirents (rs.map Dirent.reclen).sum rs)) ∧
        Listed (live (slots.drop a)) parts) w := by
  induction counts with
  | nil => exact fun _ _ => ⟨[], rfl, rfl, .nil⟩
  | cons count counts ih =>
    intro a w view room opened
    rw [List.map_cons, calls, Op.call, returning, meets_bind, meets_bind]
    refine (getdents_next reliable isKnown (room count (.head _)) opened).mono ?_
    rintro r w₁ ⟨rs, m, view₁, rfl, returned, opened₁, -⟩
    rw [meets_pure, meets_bind]
    refine (ih (fun c member => room c (.tail _ member)) opened₁).mono ?_
    rintro results w₂ ⟨parts, length, rfl, listed⟩
    refine ⟨rs :: parts, by simp [length], rfl, ?_⟩
    rw [live_drop slots a m]
    refine listed.cons returned.sized returned.entries fun none => ?_
    rw [returned.more none, List.drop_length]
    rfl

end Calls

section Streams

variable {dirp : Dir} {r : Dirent} {pending : List Dirent}

/-- These records of the buffer have not been read yet. -/
structure Pending (dirp : Dir) (pending : List Dirent) : Prop where
  sized : ∀ r ∈ pending, WellSized r
  empty : pending = [] → dirp.size ≤ dirp.offset
  stored : pending ≠ [] → ∃ before buf, (∀ r ∈ before, WellSized r) ∧
    dirp.buf = Dirent.storeAll (before ++ pending) 0 buf ∧ dirp.offset = (before.map Dirent.reclen).sum ∧
    dirp.size = ((before ++ pending).map Dirent.reclen).sum

theorem Pending.more (waits : Pending dirp (r :: pending)) : dirp.offset < dirp.size := by
  obtain ⟨before, buf, -, -, offset, size⟩ := waits.stored (List.cons_ne_nil _ _)
  have length := (waits.sized r (.head _)).reclen
  rw [offset, size, List.map_append, List.sum_append, List.map_cons, List.sum_cons]
  omega

/-- The next record is read, and the offset is behind it. -/
theorem Pending.next (waits : Pending dirp (r :: pending)) : dirp.next.1 = some r.read ∧ Pending dirp.next.2 pending := by
  obtain ⟨before, buf, sized, stored, offset, size⟩ := waits.stored (List.cons_ne_nil _ _)
  have all : ∀ r' ∈ before ++ r :: pending, WellSized r' := by
    intro r' member
    exact (List.mem_append.mp member).elim (sized r') (waits.sized r')
  have read : dirp.buf.dirent dirp.offset = r.read := by
    rw [stored, offset]
    exact Dirent.dirent_storeAll all buf
  unfold Dir.next
  rw [read]
  refine ⟨rfl, fun r' member => waits.sized r' (.tail _ member), fun none => ?_, fun _ => ⟨before ++ [r], buf, ?_, ?_, ?_, ?_⟩⟩
  · subst none
    rw [size, offset]
    simp [Dirent.read]
  · intro r' member
    exact all r' (by simp only [List.mem_append, List.mem_cons] at member ⊢; tauto)
  · rw [stored, List.append_assoc]
    rfl
  · rw [offset]
    simp [Dirent.read]
  · rw [size, List.append_assoc]
    rfl

theorem entryOf_read (r : Dirent) : entryOf r.read = entryOf r := by
  unfold entryOf Dirent.read
  rw [List.takeWhile_takeWhile]
  simp only [and_self, Bool.decide_eq_true]

/-- The stream is open, and these entries have not been returned yet. -/
structure Streams (disk : Disk Errno) (t : SlotTree) (known : Nat → Prop) (slots : List (PathName × Nat)) (o : Nat)
    (dirp : Dir) (left : List (PathName × Nat)) (w : World Fs) : Prop where
  opened : ∃ view a pending, OpenAt disk t known slots dirp.fd o a w view ∧ Pending dirp pending ∧
    left = pending.map entryOf ++ live (slots.drop a)

variable {left : List (PathName × Nat)} (reliable : Reliable disk) (isKnown : ∀ slot ∈ slots, slot.2 ≠ 0 → known slot.2)
include reliable isKnown

/-- The next entry is returned, and none when all were returned. -/
theorem readdir_next (streams : Streams disk t known slots o dirp left w) : Meets disk allowed (readdir dirp)
    (fun r w' => r.1.map entryOf = left.head? ∧ (∀ e, r.1 = some e → (entryOf e).1 = e.name) ∧ r.2.fd = dirp.fd ∧
      Streams disk t known slots o r.2 left.tail w' ∧ Reads w w') w := by
  obtain ⟨view, a, pending, opened, waits, rfl⟩ := streams
  unfold readdir
  cases pending with
  | cons r pending =>
    obtain ⟨read, waits'⟩ := waits.next
    rw [if_neg (Nat.not_le.mpr waits.more), meets_pure, read]
    refine ⟨congrArg some (entryOf_read r), ?_, rfl, ⟨view, a, pending, opened, waits', rfl⟩, .refl w⟩
    rintro _ ⟨⟩
    exact congrArg Prod.fst (entryOf_read r)
  | nil =>
    rw [if_pos (waits.empty rfl), meets_bind]
    refine (getdents_next reliable isKnown (by decide) opened).mono ?_
    rintro _ w₁ ⟨rs, m, view₁, rfl, returned, opened₁, reads⟩
    rw [List.map_nil, List.nil_append, live_drop slots a m, ← returned.entries]
    dsimp only
    cases rs with
    | nil =>
      have rest : live (slots.drop (a + m)) = [] := by
        rw [returned.more rfl, List.drop_length]
        rfl
      rw [if_pos (by rfl), meets_pure, rest]
      exact ⟨rfl, by simp, rfl, ⟨view₁, a + m, [], opened₁, waits, rest.symm⟩, reads⟩
    | cons r rs =>
      have length := (returned.sized r (.head _)).reclen
      have waits₁ : Pending { dirp with
          offset := 0
          size := ((r :: rs).map Dirent.reclen).sum
          buf := Dirent.storeAll (r :: rs) 0 dirp.buf } (r :: rs) :=
        ⟨returned.sized, by simp, fun _ => ⟨[], dirp.buf, by simp, rfl, rfl, rfl⟩⟩
      obtain ⟨read, waits'⟩ := waits₁.next
      rw [if_neg (by simp only [List.map_cons, List.sum_cons]; omega), meets_pure, read]
      refine ⟨congrArg some (entryOf_read r), ?_, rfl, ⟨view₁, a + m, rs, opened₁, waits', rfl⟩, reads⟩
      rintro _ ⟨⟩
      exact congrArg Prod.fst (entryOf_read r)

/-- Each call returns the next entry, and after the last one none. -/
theorem readdirs_lists (n : Nat) : ∀ {dirp left w}, Streams disk t known slots o dirp left w →
    Meets disk allowed (readdirs n dirp) (fun r _ => r.1.map (Option.map entryOf) =
      (List.range n).map fun k => left[k]?) w := by
  induction n with
  | zero => exact fun _ => rfl
  | succ n ih =>
    intro dirp left w streams
    rw [readdirs, meets_bind]
    refine (readdir_next reliable isKnown streams).mono ?_
    rintro ⟨e, dirp₁⟩ w₁ ⟨first, -, -, streams₁, -⟩
    rw [meets_bind]
    refine (ih streams₁).mono ?_
    rintro ⟨es, dirp₂⟩ w₂ rest
    dsimp only at first rest ⊢
    rw [meets_pure, List.map_cons, first, rest, List.range_succ_eq_map, List.map_cons, List.map_map, List.head?_eq_getElem?]
    refine congrArg _ (List.map_congr_left fun k _ => ?_)
    rw [List.getElem?_tail]
    rfl

omit reliable isKnown

theorem lseek_rewinds (opened : OpenAt disk t known slots fd o a w view) : Meets disk allowed (lseek fd 0 .set)
    (fun _ w' => OpenAt disk t known slots fd o 0 w' view ∧ Reads w w') w := by
  obtain ⟨pictured, linked, anchored, directory, ⟨file, found, rfl, pos⟩, inside⟩ := opened
  unfold lseek
  rw [meets_bind, getFile, meets_bind, meets_get, meets_pure, found]
  dsimp only
  rw [meets_bind, meets_inode (directory.valid pictured).live, meets_bind, setPos, meets_modify, meets_pure]
  have recounts := recounts_withFiles w (w.state.fdTable.setPos file.fd 0)
  exact ⟨⟨recounts.pictures pictured, recounts.linked linked, anchored, directory.withFiles _,
    ⟨_, getFile_setPos found 0, rfl, rfl⟩, Nat.zero_le _⟩, (Goes.refl w).on _, FdTable.sameOpen_setPos _ _ _⟩

/-- A stream at the start of its directory returns all entries. -/
theorem OpenAt.streams {offset size : Nat} {buf : Bytes} (opened : OpenAt disk t known slots fd o 0 w view)
    (read : size ≤ offset) : Streams disk t known slots o ⟨fd, offset, size, buf⟩ (live slots) w :=
  ⟨view, 0, [], opened, ⟨by simp, fun _ => read, fun some => absurd rfl some⟩, rfl⟩

end Streams

section Open

variable {m : Nat → Option File} {ino parent at_ : Nat} {entries : PathName → Option Nat} {path : PathName}

/-- A directory is opened at its start, under a descriptor that was free. -/
theorem open_starts (reliable : Reliable disk) (wellFormed : t.WellFormed) (pictured : Pictures disk t w view)
    (rooted : Rooted t w) (anchored : Anchored w) (refers : Refers w (w.state.cwd.getD w.state.rootInode) at_)
    (isDir : t.isDir at_ = true) (noNull : 0 ∉ path) (led : t.resolve maxDepth at_ (routeOf path) true = some ino)
    (found : t.node ino = some (.dir parent entries)) (is : w.state.fdTable.Represents m)
    (free : ∃ fd, FdTable.Assignable fd ∧ m fd = none) :
    Meets disk allowed (VFS.open path Flags.rdonly) (fun r w' => ∃ fd o view', r = .ok fd ∧
      OpenAt disk t (fun ino => (t.node ino).isSome) (t.slots ino) fd o 0 w' view' ∧ GoesOn w w' [o] ∧
      m fd = none ∧ w'.state.fdTable.Represents (Function.update m fd (some ⟨fd, Flags.rdonly, o, 0⟩))) w := by
  refine ((open_opens reliable wellFormed pictured rooted refers isDir noNull led
    (FileTree.isDir_iff.mpr ⟨_, _, found⟩)).and_after (next_le _)).mono ?_
  rintro r w' ⟨⟨o, w₁, view₁, pictured₁, opened⟩, next⟩
  cases inserted : w.state.fdTable.insertFile ⟨0, Flags.rdonly, o, 0⟩ with
  | none =>
    obtain ⟨fd, assignable, unused⟩ := free
    have full := is.insertFile_none inserted fd assignable
    rw [unused] at full
    cases full
  | some place =>
    rw [inserted] at opened
    obtain ⟨rfl, rfl, goes, refers₁⟩ := opened
    obtain ⟨-, unused, -, is'⟩ := is.insertFile inserted
    have recounts := recounts_withFiles w₁ place.2
    have file := is'.getFile place.1
    rw [Function.update_self] at file
    refine ⟨place.1, o, view₁, rfl, ⟨recounts.pictures pictured₁, recounts.linked pictured₁.linked,
      anchored.later goes.volume.imap goes.volume.zmap next, (refers₁.directory found pictured₁).withFiles place.2, ⟨_, file, rfl, rfl⟩,
      Nat.zero_le _⟩, goes.on place.2, unused, is'⟩

end Open

section Mount

theorem fixMaps_early {blockno : Nat} (n : Nat) : ∀ {i map w}, (∀ j, map j < w.device.next ∨ map j = 0) →
    After disk (fixMaps blockno n i map) (fun r w' => (∀ j, r.2.2 j < w'.device.next ∨ r.2.2 j = 0) ∧
      w.device.next ≤ w'.device.next ∧ (r.1 = none → w.device.next + n ≤ w'.device.next)) w := by
  induction n with
  | zero => exact fun early => ⟨early, Nat.le_refl _, fun _ => Nat.le_refl _⟩
  | succ n ih =>
    intro i map w early
    rw [fixMaps]
    refine meets_bind.mpr (meets_fix (fun _ => ?_) fun e _ => ⟨early, Nat.le_refl _, by simp⟩)
    refine (ih fun j => ?_).mono ?_
    · show Function.update map i w.device.next j < w.device.next + 1 ∨ _
      by_cases here : j = i
      · rw [here, Function.update_self]
        exact .inl (Nat.lt_succ_self _)
      · rw [Function.update_of_ne here]
        exact (early j).imp_left Nat.lt_succ_of_lt
    · rintro r w' ⟨early', next, more⟩
      change w.device.next + 1 ≤ w'.device.next at next
      refine ⟨early', by omega, fun none => ?_⟩
      have := more none
      change w.device.next + 1 + n ≤ w'.device.next at this
      omega

theorem Anchored.ran {α : Type} {p : FsM α} {r : α} (anchored : Anchored w)
    (spare : Spare (· < w.device.next) w.device.next p) (ran : p.run disk w = .ok (r, w')) : Anchored w' := by
  obtain ⟨-, ⟨imap, zmap⟩, spared⟩ := Meets.of_run (spare.after (w := w)
    ⟨fun i => (anchored i).1, fun i => (anchored i).2⟩ (Nat.le_refl _)) ran
  exact fun i => ⟨Nat.lt_of_lt_of_le (imap i) spared.next, Nat.lt_of_lt_of_le (zmap i) spared.next⟩

theorem rereadSuper_anchored {bits superBlock : Nat} (anchored : Anchored w)
    (ran : (Minix.rereadSuper bits superBlock).run disk w = .ok ((), w')) : Anchored w' := by
  obtain ⟨_, w₁, loaded, modified⟩ := run_bind_ok ran
  have anchored₁ := anchored.ran Spare.load loaded
  cases modified
  exact anchored₁

theorem mountRoot_anchored {bits superBlock : Nat} {memory : Bool} (anchored : Anchored w)
    (ran : (Minix.mountRoot bits superBlock memory w.state.imap w.state.zmap).run disk w = .ok (.ok (), w')) :
    Anchored w' := by
  unfold Minix.mountRoot at ran
  have later : ∀ {α : Type} {p : FsM α} {a w w'}, p.run disk w = .ok (a, w') → w.device.next ≤ w'.device.next :=
    fun ran => Meets.of_run (next_le _) ran
  obtain ⟨_, w₁, loaded, rest⟩ := run_bind_ok ran
  have anchored₁ := anchored.ran Spare.load loaded
  obtain ⟨_, w₂, stored, rest⟩ := run_bind_ok rest
  have anchored₂ := anchored₁.ran (Spare.store (.inr (Nat.lt_of_lt_of_le (anchored 0).1 (later loaded)))) stored
  obtain ⟨_, w₃, loaded', rest⟩ := run_bind_ok rest
  have anchored₃ := anchored₂.ran Spare.load loaded'
  obtain ⟨_, w₄, stored', rest⟩ := run_bind_ok rest
  have anchored₄ := anchored₃.ran (Spare.store (.inr (Nat.lt_of_lt_of_le (anchored 0).2
    ((later loaded).trans ((later stored).trans (later loaded')))))) stored'
  obtain ⟨_, w₅, reread, rest⟩ := run_bind_ok rest
  have anchored₅ := rereadSuper_anchored anchored₄ reread
  obtain ⟨r, w₆, got, rest⟩ := run_bind_ok rest
  cases r with
  | error e =>
    obtain ⟨_, _, _, rest⟩ := run_bind_ok rest
    cases rest
  | ok root =>
    unfold Minix.igetRoot at got
    split at got
    · have anchored₆ := anchored₅.ran (spare_iget rootIno) got
      obtain ⟨i, w₇, read, rest⟩ := run_bind_ok rest
      have anchored₇ := anchored₆.ran Spare.inode read
      split at rest
      · cases rest
        exact anchored₇
      · obtain ⟨_, _, _, rest⟩ := run_bind_ok rest
        obtain ⟨_, _, _, rest⟩ := run_bind_ok rest
        cases rest
    · obtain ⟨_, _, _, refused⟩ := run_bind_ok got
      cases refused

/-- A mount fixes the bitmaps before it changes anything. -/
theorem mountMaps_anchored {bits superBlock : Nat} {memory : Minix.Allocations} {super : SuperBlock}
    (ran : (Minix.mountMaps bits superBlock memory super).run disk w = .ok (.ok (), w')) : Anchored w' := by
  unfold Minix.mountMaps at ran
  obtain ⟨_, w₁, modified, rest⟩ := run_bind_ok ran
  split at rest
  · obtain ⟨_, _, _, rest⟩ := run_bind_ok rest
    cases rest
  split at rest
  · obtain ⟨_, _, _, rest⟩ := run_bind_ok rest
    cases rest
  obtain ⟨⟨failed, n, imap⟩, w₂, fixed, rest⟩ := run_bind_ok rest
  cases failed with
  | some e =>
    obtain ⟨_, _, _, rest⟩ := run_bind_ok rest
    obtain ⟨_, _, _, rest⟩ := run_bind_ok rest
    cases rest
  | none =>
    obtain ⟨⟨failed, n', zmap⟩, w₃, fixed', rest⟩ := run_bind_ok rest
    obtain ⟨_, w₄, modified', rest⟩ := run_bind_ok rest
    cases failed with
    | some e =>
      obtain ⟨_, _, _, rest⟩ := run_bind_ok rest
      obtain ⟨_, _, _, rest⟩ := run_bind_ok rest
      obtain ⟨_, _, _, rest⟩ := run_bind_ok rest
      cases rest
    | none =>
      obtain ⟨early, -, more⟩ := Meets.of_run (fixMaps_early _ fun _ => .inr rfl) fixed
      obtain ⟨early', next, -⟩ := Meets.of_run (fixMaps_early _ fun _ => .inr rfl) fixed'
      cases modified'
      have fixedSome := more rfl
      have anchored : Anchored ⟨{ w₃.state with imap := imap, zmap := zmap }, w₃.device⟩ := by
        intro i
        have before := early i
        have before' := early' i
        dsimp only at before before' ⊢
        omega
      exact mountRoot_anchored anchored rest

theorem mount_anchored {bits : Nat} {memory : Minix.Allocations}
    (ran : (Minix.mount bits memory).run disk w = .ok (.ok (), w')) : Anchored w' := by
  unfold Minix.mount at ran
  obtain ⟨r, w₁, fixed, rest⟩ := run_bind_ok ran
  cases r with
  | error e => cases rest
  | ok superBlock =>
    obtain ⟨bytes, w₂, loaded, rest⟩ := run_bind_ok rest
    dsimp only at rest
    split at rest
    · obtain ⟨_, _, _, rest⟩ := run_bind_ok rest
      cases rest
    · exact mountMaps_anchored rest

end Mount

/-- However the calls of `getdents` divide it, the listing is that of all live entries in their order, and
so is what `readdir` returns. -/
theorem listing_complete (disk : Disk Errno) (reliable : Reliable disk) (t : SlotTree) (known : Nat → Prop)
    (slots : List (PathName × Nat)) (isKnown : ∀ slot ∈ slots, slot.2 ≠ 0 → known slot.2) (fd : Int) (o : Nat)
    (w : World Fs) (view : Nat → Bytes) (opened : OpenAt disk t known slots fd o 0 w view) :
    (∀ counts : List Int, (∀ count ∈ counts, (sizeofDirent : Int) + 61 < count) →
      Returns disk (calls (counts.map (Op.getdents fd))) (fun results _ => ∃ parts : List (List Dirent),
        results = parts.map (fun rs => .ok (.dirents (rs.map Dirent.reclen).sum rs)) ∧ Listed (live slots) parts ∧
          ((live slots).length ≤ counts.length → parts.flatten.map entryOf = live slots)) w) ∧
    ∀ offset size buf n, size ≤ offset → Returns disk (readdirs n ⟨fd, offset, size, buf⟩) (fun r _ =>
      r.1.map (Option.map entryOf) = (List.range n).map fun k => (live slots)[k]?) w := by
  refine ⟨fun counts room => ?_, fun offset size buf n read => ?_⟩
  · refine (getdents_listed reliable isKnown counts (fun count member => ?_) opened).mono ?_
    · have large := room count member
      unfold sizeofDirent at large
      omega
    · rintro results w' ⟨parts, length, rfl, listed⟩
      exact ⟨parts, rfl, listed, fun enough => listed.all (by rwa [length])⟩
  · exact readdirs_lists reliable isKnown n (opened.streams read)

section Images

/-- After the mount, with its files closed. -/
theorem small_started : ∃ w, SmallMounted w ∧ Anchored w ∧ w.state.fdTable = .empty := by
  obtain ⟨w, mounted, is⟩ := small_mounted
  have anchored := mount_anchored mounted
  refine ⟨withFiles ⟨{ w.state with mounted := true }, w.device⟩ .empty, ⟨?_, ?_, is.cwd⟩, anchored, rfl⟩
  · exact (recounts_withFiles _ _).pictures is.pictured
  · exact ⟨is.rooted.cached, is.rooted.ino, is.rooted.used⟩

/-- The root of the small tree, in pieces. -/
theorem small_root_listed : ∃ w fd,
    Returns ⟨true, neverFails⟩ (calls ([120, 86, 86].map (Op.getdents fd))) (fun results _ =>
      ∃ parts : List (List Dirent), results = parts.map (fun rs => .ok (.dirents (rs.map Dirent.reclen).sum rs)) ∧
        Listed (live (smallTree.slots 1)) parts ∧
          ((live (smallTree.slots 1)).length ≤ 3 → parts.flatten.map entryOf = live (smallTree.slots 1))) w ∧
    Returns ⟨true, neverFails⟩ (readdirs 6 ⟨fd, 0, 0, fun _ => 0⟩) (fun r _ => r.1.map (Option.map entryOf) =
      [some (dotName, 1), some (dotDotName, 1), some (nameA, 2), some (nameL, 4), none, none]) w := by
  obtain ⟨w, is, anchored, files⟩ := small_started
  have opens : Returns ⟨true, neverFails⟩ (VFS.open [slash] Flags.rdonly) _ w :=
    open_starts (fun _ _ => rfl) smallTree_wellFormed is.pictured is.rooted anchored is.refers rfl (by decide)
      (show smallTree.resolve maxDepth 1 (routeOf [slash]) true = some 1 by decide +kernel) rfl (files ▸ FdTable.represents_empty) ⟨0, ⟨by decide, by decide⟩, rfl⟩
  obtain ⟨_, w', -, fd, o, view, -, opened, -⟩ := opens.run
  obtain ⟨parts, entries⟩ := listing_complete ⟨true, neverFails⟩ (fun _ _ => rfl) smallTree _ (smallTree.slots 1)
    (by decide) fd o w' view opened
  exact ⟨w', fd, parts [120, 86, 86] (by decide), entries 0 0 (fun _ => 0) 6 (Nat.le_refl 0)⟩

end Images

end MPStuBS.VFS
