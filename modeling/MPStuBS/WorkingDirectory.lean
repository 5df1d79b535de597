import MPStuBS.CompleteListing
import MPStuBS.TreeClimbing

/-! `getcwd` stores the name of every ancestor with its null byte in front, so that the path in the buffer
ends after the first name. -/
namespace MPStuBS.FileSystemImage

open Prog FsM Minix VFS FileTree

variable {disk : Disk Errno} {allowed : FsFault → Prop} {t : SlotTree} {w₀ w w' : World Fs} {view : Nat → Bytes}
  {m : Nat → Option File} {bufsiz current d x : Nat} {dirp : Dir} {down : List UInt8} {name : PathName}
  {left : List (PathName × Nat)}

section Names

/-- The names of an inode in a directory. -/
def names (ino : Nat) (slots : List (PathName × Nat)) : List PathName :=
  (slots.filter fun slot => slot.1 ≠ dotName ∧ slot.1 ≠ dotDotName ∧ slot.2 = ino).map Prod.fst

theorem names_cons (ino : Nat) (slot : PathName × Nat) (slots : List (PathName × Nat)) : names ino (slot :: slots) =
    if slot.1 ≠ dotName ∧ slot.1 ≠ dotDotName ∧ slot.2 = ino then slot.1 :: names ino slots else names ino slots := by
  unfold names
  rw [List.filter_cons]
  simp only [decide_eq_true_eq]
  split <;> rfl

/-- Directories list themselves, and each but the root has one name in its parent. -/
structure Regular (t : SlotTree) : Prop where
  wellFormed : t.WellFormed
  self : ∀ d, t.isDir d = true → ∀ ino, (dotName, ino) ∈ live (t.slots d) ↔ ino = d
  named : ∀ d, t.isDir d = true → d ≠ t.root → ∃ name, names d (live (t.slots (t.parentOf d))) = [name]
  legal : ∀ d, t.isDir d = true → ∀ slot ∈ live (t.slots d), slot.1 ≠ [] ∧ slash ∉ slot.1
  reaches : ∀ d, t.isDir d = true → ∃ n, t.parentOf^[n] d = t.root

/-- What is stored of a name. -/
def backwards (name : PathName) : List UInt8 := 0 :: name.reverse ++ [slash]

/-- The number of the current directory after an entry. -/
def selfNext (nextInode : Nat) (slot : PathName × Nat) : Nat := if slot.1 = dotName then slot.2 else nextInode

theorem foldl_selfNext (self : ∀ slot ∈ left, slot.1 = dotName → slot.2 = x) : ∀ {nextInode},
    nextInode = x ∨ (∃ slot ∈ left, slot.1 = dotName) → left.foldl selfNext nextInode = x := by
  induction left with
  | nil =>
    rintro nextInode (rfl | ⟨_, member, _⟩)
    · rfl
    · cases member
  | cons slot left ih =>
    intro nextInode found
    refine ih (fun slot member => self slot (.tail _ member)) ?_
    unfold selfNext
    split
    · rename_i here
      exact .inl (self slot (.head _) here)
    · rename_i other
      refine found.imp_right fun ⟨slot', member, here⟩ => ⟨slot', ?_, here⟩
      rcases List.mem_cons.mp member with rfl | member
      · exact absurd here other
      · exact member

theorem push_stores (chars : List UInt8) : ∀ {down}, down.length + chars.length ≤ bufsiz - 2 →
    push bufsiz chars down = some (down ++ chars) := by
  induction chars with
  | nil => simp [push]
  | cons c chars ih =>
    intro down fits
    rw [List.length_cons] at fits
    rw [push, if_neg (by omega), ih (by rw [List.length_append, List.length_singleton]; omega), List.append_assoc]
    rfl

/-- Of every entry of a directory of the tree the name has no null byte and at most 60 bytes, and the inode is in the
tree. -/
theorem slot_bounds (regular : Regular t) (pictured : Pictures disk t w view) (isDir : t.isDir d = true) :
    ∀ slot ∈ t.slots d, 0 ∉ slot.1 ∧ slot.1.length ≤ 60 ∧
      (slot.2 ≠ 0 → slot.1 ≠ dotName → t.enter d (moveOf slot.1) = some slot.2) ∧
        (slot.2 ≠ 0 → (t.node slot.2).isSome) := by
  obtain ⟨parent, entries, found⟩ := isDir_iff.mp isDir
  obtain ⟨i, shown⟩ : ∃ i, Shown w.state view i (.dir parent entries) (t.slots d) := by
    by_cases absent : ∀ o ∈ w.state.icache, (w.state.inodes o).ino ≠ d
    · exact ⟨_, pictured.recorded d _ found absent⟩
    · push Not at absent
      obtain ⟨o, member, rfl⟩ := absent
      exact ⟨_, pictured.cached o member _ found⟩
  have shows : ShowsDir w.state view (Safe w.state view) i parent entries := shown.depicts
  have listed := shown.listed parent entries rfl
  intro slot member
  have leads : slot.2 ≠ 0 → slot.1 ≠ dotName → t.enter d (moveOf slot.1) = some slot.2 := by
    intro inUse noDot
    exact (shows.lists_iff found noDot slot.2).mp (lists_iff_mem.mpr ⟨inUse, listed ▸ member⟩)
  obtain ⟨k, -, at_⟩ := List.mem_map.mp (listed ▸ member)
  have name := (congrArg Prod.fst at_).symm
  dsimp only [nameAt] at name
  refine ⟨?_, ?_, leads, fun inUse => ?_⟩
  · rw [name]
    intro null
    simpa using List.mem_takeWhile_imp null
  · rw [name]
    refine (List.takeWhile_prefix _).length_le.trans ?_
    simp
  · by_cases dot : slot.1 = dotName
    · have here := (regular.self d isDir slot.2).mp (List.mem_filter.mpr ⟨dot ▸ member, by simpa using inUse⟩)
      rw [here, found]
      rfl
    · obtain ⟨node, inTree⟩ := enter_node regular.wellFormed _ (leads inUse dot)
      rw [inTree]
      rfl

end Names

section Streams

/-- The file system is as it was, up to the caches and the positions of the files. -/
structure Stays (disk : Disk Errno) (t : SlotTree) (m : Nat → Option File) (w₀ w : World Fs) : Prop where
  pictured : ∃ view, Pictures disk t w view
  anchored : Anchored w
  goes : GoesOn w₀ w []
  files : ∃ m', w.state.fdTable.Represents m' ∧ ∀ fd, (m' fd).isSome = (m fd).isSome

theorem Stays.cwd (stays : Stays disk t m w₀ w) (refers : Refers w₀ (w₀.state.cwd.getD w₀.state.rootInode) d) :
    Refers w (w.state.cwd.getD w.state.rootInode) d := by
  rw [stays.goes.cwd]
  exact stays.goes.refers refers

/-- There is a stream for a directory besides, with these entries left. -/
structure Streaming (disk : Disk Errno) (t : SlotTree) (m : Nat → Option File) (w₀ : World Fs) (d : Nat) (dirp : Dir)
    (left : List (PathName × Nat)) (w : World Fs) : Prop where
  streams : ∃ o, Streams disk t (fun ino => (t.node ino).isSome) (t.slots d) o dirp left w ∧ GoesOn w₀ w [o]
  fd : ∃ fd : Nat, dirp.fd = fd ∧ m fd = none ∧ ∃ m', w.state.fdTable.Represents m' ∧
    ∀ n, (m' n).isSome ↔ n = fd ∨ (m n).isSome

/-- There is a descriptor for another file. -/
def HasFree (m : Nat → Option File) : Prop := ∃ fd, FdTable.Assignable fd ∧ m fd = none

theorem Streaming.reads {dirp' : Dir} {left' : List (PathName × Nat)} {o : Nat} (streaming : Streaming disk t m w₀ d dirp left w)
    (goes : GoesOn w₀ w [o]) (reads : Reads w w') (same : dirp'.fd = dirp.fd)
    (streams : Streams disk t (fun ino => (t.node ino).isSome) (t.slots d) o dirp' left' w') :
    Streaming disk t m w₀ d dirp' left' w' := by
  obtain ⟨fd, here, unused, m', is, opened⟩ := streaming.fd
  obtain ⟨m'', is', files⟩ := reads.files m' is
  exact ⟨⟨o, streams, goes.none reads.goes⟩, fd, same.trans here, unused, m'', is', fun n => by rw [files, opened]⟩

/-- The loop over the entries of a directory: the name of the current inode is stored, and the next is that of the
directory itself. -/
theorem scan_scans (reliable : Reliable disk) (isKnown : ∀ slot ∈ t.slots d, slot.2 ≠ 0 → (t.node slot.2).isSome)
    (left : List (PathName × Nat)) : ∀ {fuel dirp nextInode down w}, left.length < fuel →
      down.length + ((names current left).map fun name => name.length + 2).sum ≤ bufsiz - 1 →
      Streaming disk t m w₀ d dirp left w → Meets disk allowed (scan bufsiz current fuel dirp nextInode down) (fun r w' =>
        ∃ dirp', r = some (dirp', left.foldl selfNext nextInode, down ++ (names current left).flatMap backwards) ∧
          Streaming disk t m w₀ d dirp' [] w') w := by
  induction left with
  | nil =>
    rintro (_ | fuel) dirp nextInode down w enough fits streaming
    · cases enough
    obtain ⟨o, streams, goes⟩ := streaming.streams
    rw [scan, meets_bind]
    refine (readdir_next reliable isKnown streams).mono ?_
    rintro ⟨e, dirp'⟩ w₁ ⟨first, -, same, streams₁, reads⟩
    cases e with
    | some e => cases first
    | none => exact ⟨dirp', by simp [names], streaming.reads goes reads same streams₁⟩
  | cons slot left ih =>
    rintro (_ | fuel) dirp nextInode down w enough fits streaming
    · cases enough
    obtain ⟨o, streams, goes⟩ := streaming.streams
    rw [scan, meets_bind]
    refine (readdir_next reliable isKnown streams).mono ?_
    rintro ⟨e, dirp'⟩ w₁ ⟨first, whole, same, streams₁, reads⟩
    cases e with
    | none => cases first
    | some e =>
      have entry : (e.name, e.ino) = slot := by
        have read := Option.some.inj first
        rw [← read, ← whole e rfl]
        rfl
      subst entry
      have streaming₁ := streaming.reads goes reads same streams₁
      have enough' := Nat.lt_of_succ_lt_succ enough
      dsimp only
      rw [names_cons, List.foldl_cons, selfNext] at *
      by_cases dot : e.name = dotName
      · rw [if_pos dot, if_pos dot, if_neg fun named => named.1 dot] at *
        exact ih enough' fits streaming₁
      rw [if_neg dot, if_neg dot]
      by_cases up : e.name = dotDotName
      · rw [if_pos up]
        rw [if_neg fun named => named.2.1 up] at *
        exact ih enough' fits streaming₁
      rw [if_neg up]
      by_cases here : e.ino = current
      · rw [if_pos here]
        rw [if_pos ⟨dot, up, here⟩] at *
        rw [List.map_cons, List.sum_cons] at fits
        dsimp only at fits
        have length : (0 :: e.name.reverse).length = e.name.length + 1 := by simp
        rw [push_stores (0 :: e.name.reverse) (by omega)]
        dsimp only
        refine (ih enough' ?_ streaming₁).mono ?_
        · rw [List.length_append, List.length_append, length, List.length_singleton]
          omega
        · rintro _ w' ⟨dirp'', rfl, streaming'⟩
          exact ⟨dirp'', by simp [backwards], streaming'⟩
      · rw [if_neg here]
        rw [if_neg fun named => here named.2.2] at *
        exact ih enough' fits streaming₁

/-- The descriptor of the stream is free again. -/
theorem closedir_closes (streaming : Streaming disk t m w₀ d dirp left w) : Meets disk allowed (closedir dirp)
    (fun r w' => r = .ok () ∧ Stays disk t m w₀ w') w := by
  obtain ⟨⟨o, ⟨view, a, pending, opened, -⟩, goes⟩, fd, here, unused, m', is, only⟩ := streaming
  obtain ⟨file, found, rfl, -⟩ := opened.file
  rw [here, is.getFile] at found
  rw [closedir, here]
  cases removed : w.state.fdTable.removeFile fd with
  | none =>
    rw [is.removeFile_none removed] at found
    cases found
  | some both =>
    obtain ⟨file', table⟩ := both
    obtain ⟨found', is'⟩ := is.removeFile removed
    obtain rfl : file = file' := Option.some.inj (found.symm.trans found')
    refine ((close_goes opened.pictured goes removed).and_after (next_le _)).mono ?_
    rintro r w' ⟨⟨rfl, pictured, goes', files⟩, next⟩
    refine ⟨rfl, ⟨view, pictured⟩, ?_, goes', _, files ▸ is', fun n => ?_⟩
    · exact opened.anchored.later (goes'.volume.imap.trans goes.volume.imap.symm)
        (goes'.volume.zmap.trans goes.volume.zmap.symm) next
    · by_cases same : n = fd
      · rw [same, Function.update_self, unused]
      · rw [Function.update_of_ne same, Bool.eq_iff_iff, only, or_iff_right same]

section Opendir

variable {at_ : Nat} {path : PathName} (reliable : Reliable disk) (regular : Regular t) (stays : Stays disk t m w₀ w)
  (rooted : Rooted t w₀) (refers : Refers w₀ (w₀.state.cwd.getD w₀.state.rootInode) at_) (atDir : t.isDir at_ = true)
  (noNull : 0 ∉ path)

include reliable regular stays rooted refers atDir noNull

theorem statPath_stays {follow : Bool} (led : t.resolve maxDepth at_ (routeOf path) follow = some x) :
    Meets disk allowed (statPath path follow) (fun r w' => Stays disk t m w₀ w' ∧
      ∃ s, r = .ok s ∧ s.ino = x ∧ Mode.isDir s.mode = t.isDir x) w := by
  obtain ⟨view, pictured⟩ := stays.pictured
  obtain ⟨m₁, is, same⟩ := stays.files
  refine ((statPath_tells reliable regular.wellFormed pictured (stays.goes.rooted rooted) (stays.cwd refers) atDir noNull
    follow).and_after (next_le _)).mono ?_
  rintro r w₁ ⟨⟨pictured₁, goes₁, told⟩, next₁⟩
  rw [led] at told
  exact ⟨⟨pictured₁, stays.anchored.later goes₁.volume.imap goes₁.volume.zmap next₁,
    stays.goes.none (goes₁.on w₁.state.fdTable), m₁, goes₁.fdTable ▸ is, same⟩, told⟩

variable (led : t.resolve maxDepth at_ (routeOf path) true = some d) (isDir : t.isDir d = true)
include led isDir

/-- A directory is opened if there is a free descriptor and memory. -/
theorem opendir_opens (memory : Bool) : Meets disk allowed (opendir path memory) (fun r w' => match r with
    | none => Stays disk t m w₀ w' ∧ ¬ (HasFree m ∧ memory = true)
    | some dirp => (HasFree m ∧ memory = true) ∧ Streaming disk t m w₀ d dirp (live (t.slots d)) w') w := by
  obtain ⟨parent, entries, found⟩ := isDir_iff.mp isDir
  unfold opendir
  rw [meets_bind]
  refine (statPath_stays reliable regular stays rooted refers atDir noNull led).mono ?_
  rintro r w₁ ⟨stays₁, s, rfl, -, mode⟩
  have refers₁ := stays₁.cwd refers
  obtain ⟨⟨view₁, pictured₁⟩, anchored₁, goes, m₁, is₁, same⟩ := stays₁
  dsimp only
  rw [mode, isDir]
  simp only [Bool.not_true, Bool.false_eq_true, if_false]
  by_cases free : HasFree m
  · have free₁ : ∃ fd, FdTable.Assignable fd ∧ m₁ fd = none := by
      obtain ⟨fd, assignable, unused⟩ := free
      exact ⟨fd, assignable, by simpa [unused] using same fd⟩
    rw [meets_bind]
    refine (open_starts reliable regular.wellFormed pictured₁ (goes.rooted rooted) anchored₁ refers₁ atDir noNull led found is₁
      free₁).mono ?_
    rintro _ w₂ ⟨fd, o, view₂, rfl, opened, goes₂, unused, is₂⟩
    dsimp only
    rw [meets_bind]
    refine (lseek_rewinds opened).mono ?_
    rintro _ w₃ ⟨opened₃, reads⟩
    have streaming : Streaming disk t m w₀ d ⟨fd, 0, 0, fun _ => 0⟩ (live (t.slots d)) w₃ := by
      obtain ⟨m₃, is₃, same₃⟩ := reads.files _ is₂
      refine ⟨⟨o, opened₃.streams (Nat.le_refl 0), (Goes.more goes goes₂).none reads.goes⟩, fd, rfl, ?_, m₃, is₃, fun n => ?_⟩
      · simpa [unused] using (same fd).symm
      · rw [same₃]
        by_cases here : n = fd
        · rw [here, Function.update_self]
          simp
        · rw [Function.update_of_ne here, same, or_iff_right here]
    cases memory with
    | true => exact ⟨⟨free, rfl⟩, streaming⟩
    | false =>
      refine meets_bind.mpr ((closedir_closes streaming).mono ?_)
      rintro _ w₄ ⟨-, stays₄⟩
      exact ⟨stays₄, by simp⟩
  · rw [meets_bind]
    refine ((open_opens reliable regular.wellFormed pictured₁ (goes.rooted rooted) refers₁ atDir noNull led isDir).and_after
      (next_le _)).mono ?_
    rintro r w₂ ⟨⟨o, w₃, view₃, pictured₃, opened⟩, next₂⟩
    cases inserted : w₁.state.fdTable.insertFile ⟨0, Flags.rdonly, o, 0⟩ with
    | none =>
      rw [inserted] at opened
      obtain ⟨⟨e, rfl⟩, rfl, goes₂⟩ := opened
      refine ⟨⟨⟨view₃, pictured₃⟩, anchored₁.later goes₂.volume.imap goes₂.volume.zmap next₂,
        goes.none (goes₂.on w₂.state.fdTable), m₁, goes₂.fdTable ▸ is₁, same⟩, fun both => free both.1⟩
    | some place =>
      obtain ⟨assignable, unused, -⟩ := is₁.insertFile inserted
      exact absurd ⟨place.1, assignable, by simpa [unused] using (same place.1).symm⟩ free

end Opendir

end Streams

section Climb

/-- The names of the directories on the way to the root. -/
def Upward (t : SlotTree) : Nat → List PathName → Prop
  | c, [] => c = t.root
  | c, name :: rest => c ≠ t.root ∧ (name, c) ∈ live (t.slots (t.parentOf c)) ∧ name ≠ dotName ∧
      Upward t (t.parentOf c) rest

/-- The directories on the way are opened only if there is a descriptor and memory. -/
def GivesUp (t : SlotTree) (m : Nat → Option File) (memory : Nat → Bool) (d j : Nat) : Prop :=
  t.parentOf^[j] d ≠ t.root ∧ ¬ (HasFree m ∧ memory j = true)

theorem mem_of_names {ino : Nat} (named : names ino left = [name]) : (name, ino) ∈ left ∧ name ≠ dotName := by
  have member : name ∈ names ino left := named ▸ List.mem_singleton_self name
  unfold names at member
  simp only [List.mem_map, List.mem_filter, decide_eq_true_eq] at member
  obtain ⟨⟨_, _⟩, ⟨member, dot, -, rfl⟩, rfl⟩ := member
  exact ⟨member, dot⟩

variable (reliable : Reliable disk) (regular : Regular t) (rooted : Rooted t w₀)
  (refers : Refers w₀ (w₀.state.cwd.getD w₀.state.rootInode) d) (isDir : t.isDir d = true) {entries : Nat}
  {memory : Nat → Bool}
include reliable regular rooted refers isDir

/-- The loop over the levels gives up below the root, or stores the names of all levels. -/
theorem climb_climbs (n : Nat) : ∀ {k fuel down w}, t.parentOf^[k + n] d = t.root → n < fuel →
    (∀ j ≤ k + n, (live (t.slots (t.parentOf^[j] d))).length < entries) → 3 * (k + n) ≤ bufsiz - 5 →
    down.length + 62 * n ≤ bufsiz - 1 → Stays disk t m w₀ w →
    Meets disk allowed (climb bufsiz t.root memory entries fuel k (t.parentOf^[k] d) (upPath k) down) (fun r _ =>
      (∃ j stored, GivesUp t m memory d j ∧ r = .ok (t.parentOf^[j] d, stored)) ∨
        ∃ ns, Upward t (t.parentOf^[k] d) ns ∧ r = .ok (t.root, down ++ ns.flatMap backwards) ∧
          (ns ≠ [] → HasFree m ∧ memory k = true)) w := by
  have arrived : ∀ {k down w fuel}, t.parentOf^[k] d = t.root →
      Meets disk allowed (climb bufsiz t.root memory entries (fuel + 1) k (t.parentOf^[k] d) (upPath k) down) (fun r _ =>
      (∃ j stored, GivesUp t m memory d j ∧ r = .ok (t.parentOf^[j] d, stored)) ∨
        ∃ ns, Upward t (t.parentOf^[k] d) ns ∧ r = .ok (t.root, down ++ ns.flatMap backwards) ∧
          (ns ≠ [] → HasFree m ∧ memory k = true)) w := by
    intro k down w fuel here
    rw [climb, if_pos here, here]
    exact .inr ⟨[], rfl, by simp, by simp⟩
  induction n with
  | zero =>
    rintro k (_ | fuel) down w here enough - - - -
    · cases enough
    exact arrived here
  | succ n ih =>
    rintro k (_ | fuel) down w above enough small upFits downFits stays
    · cases enough
    by_cases here : t.parentOf^[k] d = t.root
    · exact arrived here
    have dirHere := regular.wellFormed.isDir_iterate isDir k
    have dirAbove := regular.wellFormed.isDir_iterate isDir (k + 1)
    obtain ⟨name, named⟩ := regular.named _ dirHere here
    rw [← Function.iterate_succ_apply' t.parentOf k d] at named
    obtain ⟨view, pictured⟩ := stays.pictured
    have bounds := slot_bounds regular pictured dirAbove
    have path : upPath k ++ dotDotSlash = upPath (k + 1) := rfl
    rw [climb, if_neg here, if_neg (by rw [length_upPath]; omega), path, meets_bind]
    refine (opendir_opens reliable regular stays rooted refers isDir (noNull_upPath _)
      (resolve_upPath regular.wellFormed isDir maxDepth k true) dirAbove (memory k)).mono ?_
    rintro (_ | dirp) w₁ opened
    · exact .inl ⟨k, down, ⟨here, opened.2⟩, rfl⟩
    obtain ⟨free, streaming⟩ := opened
    obtain ⟨member, noDot⟩ := mem_of_names named
    have length : name.length ≤ 60 := (bounds _ (List.mem_filter.mp member).1).2.1
    have isKnown := fun slot inside => (bounds slot inside).2.2.2
    have self : (dotName, t.parentOf^[k + 1] d) ∈ live (t.slots (t.parentOf^[k + 1] d)) :=
      (regular.self _ dirAbove _).mpr rfl
    have current : (live (t.slots (t.parentOf^[k + 1] d))).foldl selfNext t.root = t.parentOf^[k + 1] d := by
      refine foldl_selfNext (fun slot inside dot => ?_) (.inr ⟨_, self, rfl⟩)
      exact (regular.self _ dirAbove slot.2).mp (by rwa [← dot])
    have level : k + 1 + n = k + (n + 1) := Nat.add_right_comm k 1 n
    dsimp only
    rw [meets_bind]
    refine (scan_scans reliable isKnown _ (small (k + 1) (by omega)) (by rw [named]; simp; omega) streaming).mono ?_
    rintro _ w₂ ⟨dirp', rfl, streaming₂⟩
    rw [current, named]
    dsimp only
    rw [meets_bind]
    refine (closedir_closes streaming₂).mono ?_
    rintro _ w₃ ⟨rfl, stays₃⟩
    have stored : (down ++ [name].flatMap backwards).length ≤ down.length + 62 := by
      simp [backwards]
      omega
    dsimp only
    refine (ih (k := k + 1) (level ▸ above) (by omega) (level ▸ small) (level ▸ upFits) (by omega) stays₃).mono ?_
    rintro r w' (gaveUp | ⟨ns, upward, rfl, -⟩)
    · exact .inl gaveUp
    · rw [Function.iterate_succ_apply'] at upward member
      exact .inr ⟨name :: ns, ⟨here, member, noDot, upward⟩, by simp, fun _ => free⟩

/-- What is in the buffer on return: nothing, or all names on the way from the root, each with its null byte. -/
theorem getcwd_stores (stays : Stays disk t m w₀ w) (memory : Nat → Bool) : ∃ enough, ∀ bufsiz fuel, enough ≤ bufsiz → enough ≤ fuel →
    Returns disk (getcwd bufsiz memory fuel) (fun r _ => (∃ j, GivesUp t m memory d j ∧ r = .ok []) ∨
      ∃ ns, Upward t d ns ∧ r = .ok ([0, slash] ++ ns.flatMap backwards).reverse ∧ (ns ≠ [] → HasFree m ∧ memory 0 = true))
      w := by
  obtain ⟨n, above⟩ := regular.reaches d isDir
  set longest := (Finset.range (n + 1)).sup fun j => (live (t.slots (t.parentOf^[j] d))).length with longestDef
  refine ⟨62 * n + longest + 10, fun bufsiz fuel large enough => ?_⟩
  have small : ∀ j ≤ 0 + n, (live (t.slots (t.parentOf^[j] d))).length < fuel := by
    intro j inside
    have bound := Finset.le_sup (f := fun j => (live (t.slots (t.parentOf^[j] d))).length)
      (Finset.mem_range.mpr (show j < n + 1 by omega))
    omega
  unfold getcwd
  rw [if_neg (by omega)]
  refine meets_bind.mpr ((statPath_stays reliable regular stays rooted refers isDir (by decide) (resolve_dot isDir _ _)).mono ?_)
  rintro r w₁ ⟨stays₁, here, rfl, current, -⟩
  dsimp only
  rw [meets_bind]
  refine (statPath_stays reliable regular stays₁ rooted refers isDir (by decide)
    (resolve_slash regular.wellFormed _ _)).mono ?_
  rintro r w₂ ⟨stays₂, top, rfl, root, -⟩
  dsimp only
  rw [root, current, meets_bind]
  refine (climb_climbs reliable regular rooted refers isDir n (k := 0) (by rwa [Nat.zero_add]) (by omega) small (by omega)
    (by simp; omega) stays₂).mono ?_
  rintro r w₃ (⟨j, stored, gaveUp, rfl⟩ | ⟨ns, upward, rfl, free⟩)
  · refine .inl ⟨j, gaveUp, ?_⟩
    rw [if_neg gaveUp.1]
  · refine .inr ⟨ns, upward, ?_, free⟩
    rw [if_pos rfl]

end Climb

section Paths

/-- The buffer holds a path that leads to the directory, from whatever working directory. -/
def Inverts (disk : Disk Errno) (t : SlotTree) (d bufsiz : Nat) (r : Except Errno (List UInt8)) : Prop :=
  ∃ path rest, r = .ok (path ++ 0 :: rest) ∧ (path ++ 0 :: rest).length ≤ bufsiz ∧ 0 ∉ path ∧ path.head? = some slash ∧
    ∀ w view at_, Pictures disk t w view → Rooted t w → Refers w (w.state.cwd.getD w.state.rootInode) at_ →
      t.isDir at_ = true → Returns disk (chdir path) (fun r w' => r = .ok () ∧
        ∃ o, w'.state.cwd = some o ∧ Refers w' o d) w

/-- The name that is stored last is that of a child of the root. -/
theorem upward_top (wellFormed : t.WellFormed) (ns : List PathName) : ∀ {c}, t.isDir c = true → Upward t c ns → ns ≠ [] →
    ∃ before name x, ns = before ++ [name] ∧ t.isDir x = true ∧ t.parentOf x = t.root ∧
      (name, x) ∈ live (t.slots t.root) ∧ name ≠ dotName ∧ (before = [] → x = c) ∧ (before ≠ [] → t.parentOf c ≠ t.root) := by
  induction ns with
  | nil => exact fun _ _ some => absurd rfl some
  | cons name rest ih =>
    rintro c isDir ⟨-, member, noDot, upward⟩ -
    by_cases last : rest = []
    · subst last
      have parent : t.parentOf c = t.root := upward
      exact ⟨[], name, c, rfl, isDir, parent, parent ▸ member, noDot, fun _ => rfl, fun some => absurd rfl some⟩
    · obtain ⟨before, top, x, rfl, dirX, parent, member', noDot', -⟩ := ih (wellFormed.isDir_parentOf isDir) upward last
      refine ⟨name :: before, top, x, rfl, dirX, parent, member', noDot', by simp, fun _ => ?_⟩
      cases before with
      | nil => exact upward.1
      | cons _ _ => exact upward.1

theorem reverse_stored (before : List PathName) (name : PathName) : ([0, slash] ++ (before ++ [name]).flatMap backwards).reverse =
    (slash :: name) ++ 0 :: ([0, slash] ++ before.flatMap backwards).reverse := by
  simp [backwards]

/-- The string at the start of a buffer ends before its first null byte. -/
theorem string_unique {path path' rest rest' : List UInt8} (noNull : 0 ∉ path) (noNull' : 0 ∉ path')
    (same : path ++ 0 :: rest = path' ++ 0 :: rest') : path = path' := by
  have string : ∀ path rest : List UInt8, 0 ∉ path → (path ++ 0 :: rest).takeWhile (· != 0) = path := by
    intro path rest noNull
    rw [List.takeWhile_append_of_pos fun c member => by simpa using ne_of_mem_of_not_mem member noNull]
    simp
  rw [← string path rest noNull, same, string path' rest' noNull']

theorem chdir_arrives {at_ : Nat} {path : PathName} (reliable : Reliable disk) (wellFormed : t.WellFormed)
    (pictured : Pictures disk t w view) (rooted : Rooted t w) (refers : Refers w (w.state.cwd.getD w.state.rootInode) at_)
    (atDir : t.isDir at_ = true) (noNull : 0 ∉ path) (led : t.resolve maxDepth at_ (routeOf path) true = some x)
    (isDir : t.isDir x = true) : Meets disk allowed (chdir path) (fun r w' => r = .ok () ∧
      ∃ o, w'.state.cwd = some o ∧ Refers w' o x) w := by
  refine (chdir_leads reliable wellFormed pictured rooted refers atDir noNull).mono ?_
  intro r w' arrives
  rw [led] at arrives
  obtain ⟨rfl, moved⟩ := (if_pos isDir).mp arrives
  exact ⟨rfl, moved.there⟩

/-- What `getcwd` leaves is right for the root, and for its children if their parent can be opened. -/
theorem stored_inverts_iff {memory : Nat → Bool} {r : Except Errno (List UInt8)} (reliable : Reliable disk)
    (regular : Regular t) (pictured : Pictures disk t w view) (rooted : Rooted t w)
    (refers : Refers w (w.state.cwd.getD w.state.rootInode) d) (isDir : t.isDir d = true) (large : 64 ≤ bufsiz)
    (stored : (∃ j, GivesUp t m memory d j ∧ r = .ok []) ∨ ∃ ns, Upward t d ns ∧
      r = .ok ([0, slash] ++ ns.flatMap backwards).reverse ∧ (ns ≠ [] → HasFree m ∧ memory 0 = true)) :
    Inverts disk t d bufsiz r ↔ d = t.root ∨ (t.parentOf d = t.root ∧ HasFree m ∧ memory 0 = true) := by
  have wellFormed := regular.wellFormed
  obtain ⟨j, gaveUp, rfl⟩ | ⟨ns, upward, rfl, free⟩ := stored
  · refine iff_of_false (fun ⟨path, rest, same, _⟩ => by simp at same) ?_
    rintro (rfl | ⟨parent, both⟩)
    · exact gaveUp.1 (wellFormed.iterate_root j)
    · cases j with
      | zero => exact gaveUp.2 both
      | succ j =>
        refine gaveUp.1 ?_
        rw [Function.iterate_succ_apply, parent, wellFormed.iterate_root]
  by_cases none : ns = []
  · subst none
    obtain rfl : d = t.root := upward
    refine iff_of_true ⟨[slash], [], rfl, by simp; omega, by decide, rfl, ?_⟩ (.inl rfl)
    intro w view at_ pictured rooted refers atDir
    exact chdir_arrives reliable wellFormed pictured rooted refers atDir (by decide) (resolve_slash wellFormed _ _) isDir
  have below : d ≠ t.root := by
    cases ns with
    | nil => exact absurd rfl none
    | cons _ _ => exact upward.1
  obtain ⟨before, name, x, rfl, dirX, parent, member, noDot, here, deep⟩ := upward_top wellFormed ns isDir upward none
  obtain ⟨noNull, length, leads, -⟩ := slot_bounds regular pictured wellFormed.isDir_root _ (List.mem_filter.mp member).1
  obtain ⟨named, noSlash⟩ := regular.legal _ wellFormed.isDir_root _ member
  dsimp only at noNull length leads named noSlash
  have entered := leads (by simpa using (List.mem_filter.mp member).2) noDot
  have noNull' : 0 ∉ slash :: name := List.not_mem_cons_of_ne_of_not_mem (by decide) noNull
  have arrives : ∀ w view at_, Pictures disk t w view → Rooted t w → Refers w (w.state.cwd.getD w.state.rootInode) at_ →
      t.isDir at_ = true → Returns disk (chdir (slash :: name)) (fun r w' => r = .ok () ∧
        ∃ o, w'.state.cwd = some o ∧ Refers w' o x) w := fun w view at_ pictured rooted refers atDir =>
    chdir_arrives reliable wellFormed pictured rooted refers atDir noNull' (resolve_child named noSlash dirX entered _) dirX
  rw [reverse_stored]
  by_cases child : before = []
  · obtain rfl := here child
    subst child
    refine iff_of_true ⟨slash :: name, _, rfl, ?_, noNull', rfl, arrives⟩ (.inr ⟨parent, free none⟩)
    simp
    omega
  · refine iff_of_false ?_ ?_
    · rintro ⟨path, rest, same, -, noNull'', -, leads'⟩
      obtain rfl := string_unique noNull'' noNull' (Except.ok.inj same).symm
      obtain ⟨r, w₁, ran, -, o, cwd, atD⟩ := (leads' w view d pictured rooted refers isDir).run
      obtain ⟨-, o', cwd', atX⟩ := Meets.of_run (arrives w view d pictured rooted refers isDir) ran
      obtain rfl : o = o' := Option.some.inj (cwd.symm.trans cwd')
      exact deep child (by rw [← atD.ino, atX.ino, parent])
    · rintro (root | ⟨parent', -⟩)
      · exact below root
      · exact deep child parent'

end Paths

section Images

theorem smallTree_regular : Regular smallTree := by
  have dirs : ∀ d, smallTree.isDir d = true → d = 1 ∨ d = 2 ∨ d = 3 := by
    rintro (_ | _ | _ | _ | _ | d) isDir <;> first | omega | cases isDir
  refine ⟨smallTree_wellFormed, fun d isDir ino => ?_, fun d isDir below => ?_, fun d isDir => ?_, fun d isDir => ?_⟩
  · rcases dirs d isDir with rfl | rfl | rfl <;> simp [smallTree, live, dotName, dotDotName, nameA, nameL, nameB]
  · rcases dirs d isDir with rfl | rfl | rfl
    · exact absurd rfl below
    · exact ⟨nameA, by decide⟩
    · exact ⟨nameB, by decide⟩
  · rcases dirs d isDir with rfl | rfl | rfl <;> decide
  · rcases dirs d isDir with rfl | rfl | rfl
    · exact ⟨0, rfl⟩
    · exact ⟨1, rfl⟩
    · exact ⟨2, rfl⟩

/-- With the small tree, without open files, in a directory. -/
structure SmallAt (d : Nat) (w : World Fs) : Prop where
  pictured : ∃ view, Pictures ⟨true, neverFails⟩ smallTree w view
  rooted : Rooted smallTree w
  anchored : Anchored w
  refers : Refers w (w.state.cwd.getD w.state.rootInode) d
  files : w.state.fdTable.Represents fun _ => none

/-- In the directory that a path leads to from the root. -/
theorem small_at (path : PathName) (d : Nat) (noNull : 0 ∉ path) (led : smallTree.resolve maxDepth 1 (routeOf path) true = some d)
    (isDir : smallTree.isDir d = true) : ∃ w₀ w, SmallMounted w₀ ∧
      (chdir path).run ⟨true, neverFails⟩ w₀ = .ok (.ok (), w) ∧ SmallAt d w := by
  obtain ⟨w₀, is, anchored, files⟩ := small_started
  have arrives : Returns ⟨true, neverFails⟩ (chdir path) _ w₀ := (chdir_leads (fun _ _ => rfl) smallTree_wellFormed
    is.pictured is.rooted is.refers rfl noNull).and_after (next_le _)
  obtain ⟨r, w, ran, arrived, next⟩ := arrives.run
  rw [led] at arrived
  obtain ⟨rfl, pictured, volume, table, kept, o, cwd, refers⟩ := (if_pos isDir).mp arrived
  refine ⟨w₀, w, is, ran, pictured, ?_, anchored.later volume.imap volume.zmap next, ?_, ?_⟩
  · unfold Rooted
    rw [volume.rootInode]
    exact kept _ _ (by simp [is.cwd]) is.rooted
  · rw [cwd]
    exact refers
  · rw [table, files]
    exact FdTable.represents_empty

/-- In `a/b` the buffer holds the names `b` and `a` with a null byte between them, so that the path is `/a`. -/
theorem small_getcwd_cut : ∃ w₀ w, SmallMounted w₀ ∧
    (chdir [97, slash, 98]).run ⟨true, neverFails⟩ w₀ = .ok (.ok (), w) ∧ SmallAt 3 w ∧
      ∃ enough, ∀ bufsiz fuel, enough ≤ bufsiz → enough ≤ fuel →
        Returns ⟨true, neverFails⟩ (getcwd bufsiz (fun _ => true) fuel) (fun r _ =>
          r = .ok [slash, 97, 0, slash, 98, 0, slash, 0] ∧ ¬ Inverts ⟨true, neverFails⟩ smallTree 3 bufsiz r) w := by
  obtain ⟨w₀, w, is, ran, here⟩ := small_at [97, slash, 98] 3 (by decide) (by decide +kernel) rfl
  obtain ⟨view, pictured⟩ := here.pictured
  have free : HasFree fun _ => none := ⟨0, ⟨by decide, by decide⟩, rfl⟩
  obtain ⟨enough, stores⟩ := getcwd_stores (fun _ _ => rfl) smallTree_regular here.rooted here.refers rfl
    ⟨here.pictured, here.anchored, Goes.refl _, _, here.files, fun _ => rfl⟩ fun _ => true
  refine ⟨w₀, w, is, ran, here, enough + 64, fun bufsiz fuel large fueled =>
    (stores bufsiz fuel (by omega) (by omega)).mono fun r w' stored => ⟨?_, fun inverts => ?_⟩⟩
  · obtain ⟨j, gaveUp, -⟩ | ⟨ns, upward, rfl, -⟩ := stored
    · exact absurd ⟨free, rfl⟩ gaveUp.2
    · obtain _ | ⟨name, _ | ⟨name', _ | ⟨_, _⟩⟩⟩ := ns
      · exact absurd upward (show (3 : Nat) ≠ 1 by decide)
      · exact absurd upward.2.2.2 (show (2 : Nat) ≠ 1 by decide)
      · obtain ⟨-, member, -, -, member', -, -⟩ := upward
        change (name, 3) ∈ [(dotName, 2), (dotDotName, 1), (nameB, 3)] at member
        change (name', 2) ∈ [(dotName, 1), (dotDotName, 1), (nameA, 2), (nameL, 4)] at member'
        obtain rfl : name = nameB := by simpa using member
        obtain rfl : name' = nameA := by simpa using member'
        rfl
      · exact absurd upward.2.2.2.2.2.2.1 (by decide)
  · have right := (stored_inverts_iff (fun _ _ => rfl) smallTree_regular pictured here.rooted here.refers rfl (by omega)
      stored).mp inverts
    rcases right with root | ⟨parent, -⟩
    · exact absurd root (by decide)
    · exact absurd parent (by decide)

end Images

/-- In a directory below a child of the root the path in the buffer leads to that child. -/
theorem getcwd_inverts_iff (disk : Disk Errno) (reliable : Reliable disk) (t : SlotTree) (regular : Regular t) (w : World Fs)
    (view : Nat → Bytes) (pictured : Pictures disk t w view) (rooted : Rooted t w) (anchored : Anchored w) (d : Nat)
    (refers : Refers w (w.state.cwd.getD w.state.rootInode) d) (isDir : t.isDir d = true) (m : Nat → Option File)
    (files : w.state.fdTable.Represents m) (memory : Nat → Bool) : ∃ enough, ∀ bufsiz fuel, enough ≤ bufsiz →
      enough ≤ fuel → Returns disk (getcwd bufsiz memory fuel) (fun r _ => Inverts disk t d bufsiz r ↔
        d = t.root ∨ (t.parentOf d = t.root ∧ HasFree m ∧ memory 0 = true)) w := by
  obtain ⟨enough, stores⟩ := getcwd_stores reliable regular rooted refers isDir
    ⟨⟨view, pictured⟩, anchored, Goes.refl _, m, files, fun _ => rfl⟩ memory
  refine ⟨enough + 64, fun bufsiz fuel large fueled => (stores bufsiz fuel (by omega) (by omega)).mono fun r w' stored => ?_⟩
  exact stored_inverts_iff reliable regular pictured rooted refers isDir (by omega) stored

/-- In `a` the path is right. -/
theorem small_getcwd_inverts : ∃ w₀ w, SmallMounted w₀ ∧ (chdir [97]).run ⟨true, neverFails⟩ w₀ = .ok (.ok (), w) ∧
    ∃ enough, ∀ bufsiz fuel, enough ≤ bufsiz → enough ≤ fuel →
      Returns ⟨true, neverFails⟩ (getcwd bufsiz (fun _ => true) fuel) (fun r _ =>
        Inverts ⟨true, neverFails⟩ smallTree 2 bufsiz r) w := by
  obtain ⟨w₀, w, is, ran, here⟩ := small_at [97] 2 (by decide) (by decide +kernel) rfl
  obtain ⟨view, pictured⟩ := here.pictured
  obtain ⟨enough, inverts⟩ := getcwd_inverts_iff ⟨true, neverFails⟩ (fun _ _ => rfl) smallTree smallTree_regular w view pictured
    here.rooted here.anchored 2 here.refers rfl (fun _ => none) here.files fun _ => true
  refine ⟨w₀, w, is, ran, enough, fun bufsiz fuel large fueled => (inverts bufsiz fuel large fueled).mono fun r w' right => ?_⟩
  exact right.mpr (.inr ⟨rfl, ⟨0, ⟨by decide, by decide⟩, rfl⟩, rfl⟩)

end MPStuBS.FileSystemImage
