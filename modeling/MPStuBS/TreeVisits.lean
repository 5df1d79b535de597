import MPStuBS.CompleteListing
import MPStuBS.Holders

/-! Calls that change no file. Whatever the cache does, they return what a machine on the tree returns. -/
namespace MPStuBS.VFS

open Prog FsM Minix Filesystem

/-- An open file of the tree, and how many slots are before its position. -/
structure Handle where
  ino : Nat
  slot : Nat
  deriving DecidableEq, Repr

/-- The working directory and the open files. -/
structure Place where
  cwd : Nat
  files : Nat → Option Handle

namespace Place

variable (t : SlotTree) (p : Place)

def resolve (path : PathName) (follow : Bool) : Option Nat := t.resolve maxDepth p.cwd (routeOf path) follow

def setFile (fd : Nat) (handle : Option Handle) : Place := { p with files := Function.update p.files fd handle }

/-- No file has a negative descriptor. -/
def file (fd : Int) : Option Handle := if fd < 0 then none else p.files fd.toNat

@[simp] theorem file_natCast (fd : Nat) : p.file fd = p.files fd := by
  rw [file, if_neg (by omega), Int.toNat_natCast]

/-- The number of the inode of an open file. -/
def inode (fd : Int) : Option Nat := (p.file fd).map Handle.ino

def Free (fd : Nat) : Prop := FdTable.Assignable fd ∧ p.files fd = none

end Place

inductive Visit where
  | chdir (path : PathName)
  | fchdir (fd : Int)
  | stat (path : PathName)
  | lstat (path : PathName)
  | fstat (fd : Int)
  | «open» (path : PathName)
  | close (fd : Int)
  | getdents (fd count : Int)
  | rewind (fd : Int)
  deriving DecidableEq, Repr

namespace Visit

def op : Visit → Op
  | .chdir path => .chdir path
  | .fchdir fd => .fchdir fd
  | .stat path => .stat path
  | .lstat path => .lstat path
  | .fstat fd => .fstat fd
  | .open path => .open path Flags.rdonly
  | .close fd => .close fd
  | .getdents fd count => .getdents fd count
  | .rewind fd => .lseek fd 0 .set

/-- Paths are C strings, and a buffer that is not refused has room for the longest record. What is closed has a
descriptor, open or not. -/
def Valid : Visit → Prop
  | .chdir path | .stat path | .lstat path | .open path => 0 ∉ path
  | .close fd => 0 ≤ fd
  | .getdents _ count => count < sizeofDirent + 2 ∨ (sizeofDirent : Int) + 61 < count
  | _ => True

end Visit

section Machine

variable (t : SlotTree) (p : Place)

def IsError (r : Result) : Prop := ∃ e, r = .error e

/-- The directory is entered if it is one. -/
def Enters (missing : Result → Prop) (target : Option Nat) (r : Result) (p' : Place) : Prop :=
  match target with
  | none => missing r ∧ p' = p
  | some ino =>
    if t.isDir ino then r = .ok .done ∧ p' = { p with cwd := ino } else r = .error .enotdir ∧ p' = p

def Tells (missing : Result → Prop) (target : Option Nat) (r : Result) (p' : Place) : Prop :=
  p' = p ∧ match target with
    | none => missing r
    | some ino => ∃ s, r = .ok (.stat s) ∧ s.ino = ino ∧ Mode.isDir s.mode = t.isDir ino

/-- The least free descriptor is taken. -/
def Opens (target : Option Nat) (r : Result) (p' : Place) : Prop :=
  match target with
  | none => IsError r ∧ p' = p
  | some ino =>
    (∃ fd, IsLeast (fun fd => p.Free fd) fd ∧ r = .ok (.number fd) ∧ p' = p.setFile fd (some ⟨ino, 0⟩)) ∨
      ((∀ fd, ¬ p.Free fd) ∧ r = .error .emfile ∧ p' = p)

/-- The entries are those of some slots from the position on, and none only at the end. -/
def Lists (fd : Int) (r : Result) (p' : Place) : Prop :=
  match p.file fd with
  | none => r = .error .ebadf ∧ p' = p
  | some handle =>
    if t.isDir handle.ino then ∃ rs m, r = .ok (.dirents (rs.map Dirent.reclen).sum rs) ∧
      Returned (t.slots handle.ino) handle.slot m rs ∧
        p' = p.setFile fd.toNat (some { handle with slot := handle.slot + m })
    else r = .error .enotdir ∧ p' = p

def Closes (fd : Int) (r : Result) (p' : Place) : Prop :=
  match p.file fd with
  | none => r = .error .ebadf ∧ p' = p
  | some _ => r = .ok .done ∧ p' = p.setFile fd.toNat none

def Rewinds (fd : Int) (r : Result) (p' : Place) : Prop :=
  match p.file fd with
  | none => r = .error .ebadf ∧ p' = p
  | some handle => r = .ok (.number 0) ∧ p' = p.setFile fd.toNat (some { handle with slot := 0 })

/-- What a call returns, and where the process is then. -/
def Sees (visit : Visit) (r : Result) (p' : Place) : Prop :=
  match visit with
  | .chdir path => Enters t p IsError (p.resolve t path true) r p'
  | .fchdir fd => Enters t p (· = .error .ebadf) (p.inode fd) r p'
  | .stat path => Tells t p IsError (p.resolve t path true) r p'
  | .lstat path => Tells t p IsError (p.resolve t path false) r p'
  | .fstat fd => Tells t p (· = .error .ebadf) (p.inode fd) r p'
  | .open path => Opens p (p.resolve t path true) r p'
  | .close fd => Closes p fd r p'
  | .getdents fd count => if count < sizeofDirent + 2 then r = .error .einval ∧ p' = p else Lists t p fd r p'
  | .rewind fd => Rewinds p fd r p'

/-- What several calls return one after the other. -/
inductive Tour (t : SlotTree) : Place → List Visit → List Result → Place → Prop
  | nil (p : Place) : Tour t p [] [] p
  | cons {p p' p'' : Place} {visit : Visit} {visits : List Visit} {r : Result} {results : List Result}
      (sees : Sees t p visit r p') (rest : Tour t p' visits results p'') : Tour t p (visit :: visits) (r :: results) p''

end Machine

variable {disk : Disk Errno} {allowed : FsFault → Prop} {t : SlotTree} {p p' : Place} {w w' : World Fs}
  {view : Nat → Bytes} {o ino : Nat} {path : PathName}

section Invariant

/-- A file of the table is that of a handle. -/
structure IsFile (t : SlotTree) (w : World Fs) (file : File) (handle : Handle) : Prop where
  ino : (w.state.inodes file.inode).ino = handle.ino
  inTree : (t.node handle.ino).isSome
  pos : file.pos = (64 * handle.slot : Nat)
  inside : t.isDir handle.ino = true → handle.slot ≤ (t.slots handle.ino).length

/-- The process is at the place. The references are those of the holders and these in `held`. -/
structure IsAt (disk : Disk Errno) (t : SlotTree) (p : Place) (held : List Nat) (w : World Fs) : Prop where
  pictured : ∃ view, Pictures disk t w view
  anchored : Anchored w
  counted : ∀ o, w.state.refs o = (held ++ w.state.holders).count o
  cached : ∀ o ∈ w.state.holders, o ∈ w.state.icache
  root : (w.state.inodes w.state.rootInode).ino = t.root
  cwd : (w.state.inodes (w.state.cwd.getD w.state.rootInode)).ino = p.cwd
  isDir : t.isDir p.cwd = true
  files : ∃ m, w.state.fdTable.Represents m ∧ ∀ fd, Option.Rel (IsFile t w) (m fd) (p.files fd)

variable {held : List Nat} {m : Nat → Option File} {fd : Nat} {file : File} {handle : Handle} {table : FdTable}

/-- The descriptor is free on both sides, or its file is that of the handle. -/
theorem opened_later {left : Option File} {right : Option Handle} (opened : Option.Rel (IsFile t w) left right)
    (same : ∀ file, left = some file → (w'.state.inodes file.inode).ino = (w.state.inodes file.inode).ino) :
    Option.Rel (IsFile t w') left right := by
  cases opened with
  | none => exact .none
  | some isFile => exact .some ⟨(same _ rfl).trans isFile.ino, isFile.inTree, isFile.pos, isFile.inside⟩

theorem mem_inodes (is : table.Represents m) (known : m fd = some file) : file.inode ∈ table.inodes := by
  have named := is.named fd file known
  refine List.mem_flatMap.mpr ⟨file.fd % FdTable.tableSize, List.mem_range.mpr (FdTable.bucket_lt _), ?_⟩
  refine List.mem_map.mpr ⟨file, (is.buckets _ (FdTable.bucket_lt _) file).mpr ⟨rfl, ?_⟩, rfl⟩
  rw [named, known]

theorem mounted_holders (mounted : w.state.mounted = true) :
    w.state.holders = w.state.rootInode :: (w.state.cwd.toList ++ w.state.fdTable.inodes) := by
  unfold Fs.holders
  rw [if_pos mounted]
  rfl

namespace IsAt

section Holders

variable (isAt : IsAt disk t p held w)
include isAt

theorem mounted : w.state.mounted = true := by
  obtain ⟨view, pictured⟩ := isAt.pictured
  exact pictured.mounted

theorem used (member : o ∈ w.state.holders) : w.state.refs o ≠ 0 := by
  have some := List.count_pos_iff.mpr (List.mem_append_right held member)
  have all := isAt.counted o
  omega

theorem refers (member : o ∈ w.state.holders) : Refers w o (w.state.inodes o).ino :=
  ⟨isAt.cached o member, rfl, isAt.used member⟩

theorem root_mem : w.state.rootInode ∈ w.state.holders := by
  rw [mounted_holders isAt.mounted]
  exact .head _

theorem cwd_mem : w.state.cwd.getD w.state.rootInode ∈ w.state.holders := by
  cases cwd : w.state.cwd with
  | none => exact isAt.root_mem
  | some dir => simp [mounted_holders isAt.mounted, cwd]

theorem file_mem (is : w.state.fdTable.Represents m) (known : m fd = some file) : file.inode ∈ w.state.holders := by
  rw [mounted_holders isAt.mounted]
  exact .tail _ (List.mem_append_right _ (mem_inodes is known))

theorem rooted : Rooted t w := by
  have refers := isAt.refers isAt.root_mem
  rwa [isAt.root] at refers

theorem refersCwd : Refers w (w.state.cwd.getD w.state.rootInode) p.cwd := isAt.cwd ▸ isAt.refers isAt.cwd_mem

/-- Some calls have been made inside, and what they hold is known. -/
theorem goes {more : List Nat} (pictured : ∃ view, Pictures disk t w' view) (goes : Goes w w' more)
    (next : w.device.next ≤ w'.device.next) : IsAt disk t p (more ++ held) w' := by
  obtain ⟨m, is, opened⟩ := isAt.files
  have holders : w'.state.holders = w.state.holders := by
    unfold Fs.holders
    rw [goes.volume.mounted, goes.volume.rootInode, goes.cwd, goes.fdTable]
  have later : ∀ o ∈ w.state.holders, o ∈ w'.state.icache ∧ (w'.state.inodes o).ino = (w.state.inodes o).ino :=
    fun o member => goes.used o (isAt.cached o member) (isAt.used member)
  refine ⟨pictured, isAt.anchored.later goes.volume.imap goes.volume.zmap next, fun o => ?_, fun o member => ?_, ?_, ?_,
    isAt.isDir, m, goes.fdTable ▸ is, fun fd => opened_later (opened fd) fun file known => ?_⟩
  · rw [goes.refs, isAt.counted, holders]
    simp only [List.count_append]
    omega
  · rw [holders] at member
    exact (later o member).1
  · rw [goes.volume.rootInode]
    exact (later _ isAt.root_mem).2.trans isAt.root
  · rw [goes.cwd, goes.volume.rootInode]
    exact (later _ isAt.cwd_mem).2.trans isAt.cwd
  · exact (later _ (isAt.file_mem is known)).2

end Holders

/-- A reference is given back. -/
theorem drop (isAt : IsAt disk t p (o :: held) w) (cached : o ∈ w.state.icache) :
    IsAt disk t p held (recounted w o (w.state.numInodeReferences - 1) (w.state.refs o - 1)) := by
  obtain ⟨view, pictured⟩ := isAt.pictured
  obtain ⟨m, is, opened⟩ := isAt.files
  have all := isAt.counted
  have here := all o
  rw [List.cons_append, List.count_cons_self] at here
  have recounts := recounts w o (w.state.numInodeReferences - 1) (w.state.refs o - 1)
  refine ⟨⟨view, recounts.pictures pictured⟩, isAt.anchored, fun q => ?_, isAt.cached, (recounts.ino _).trans isAt.root,
    (recounts.ino _).trans isAt.cwd, isAt.isDir, m, is, fun fd => opened_later (opened fd) fun _ _ => recounts.ino _⟩
  change _ = (held ++ w.state.holders).count q
  rw [refs_recounted (pictured.settled.early o cached)]
  split
  · rename_i same
    subst same
    omega
  · rename_i other
    rw [all, List.cons_append, List.count_cons_of_ne (Ne.symm other)]

theorem put (isAt : IsAt disk t p (o :: held) w) (cached : o ∈ w.state.icache) : Meets disk allowed (Inode.put o)
    (fun _ w' => w' = recounted w o (w.state.numInodeReferences - 1) (w.state.refs o - 1)) w := by
  obtain ⟨view, pictured⟩ := isAt.pictured
  refine put_meets pictured cached ?_
  rw [isAt.counted, List.cons_append, List.count_cons_self]
  exact Nat.succ_ne_zero _

/-- The inode of a reference becomes the working directory. -/
theorem enter (isAt : IsAt disk t p (o :: held) w) (refers : Refers w o ino) (isDir : t.isDir ino = true) :
    IsAt disk t { p with cwd := ino } (w.state.cwd.toList ++ held) (withCwd w o) := by
  obtain ⟨view, pictured⟩ := isAt.pictured
  obtain ⟨m, is, opened⟩ := isAt.files
  have recounts := recounts_withCwd w o
  have holders := mounted_holders isAt.mounted
  have holders' : (withCwd w o).state.holders = w.state.rootInode :: (o :: w.state.fdTable.inodes) :=
    mounted_holders (w := withCwd w o) isAt.mounted
  refine ⟨⟨view, recounts.pictures pictured⟩, isAt.anchored, fun q => ?_, fun q member => ?_, isAt.root, refers.ino,
    isDir, m, is, fun fd => opened_later (opened fd) fun _ _ => rfl⟩
  · change w.state.refs q = _
    rw [isAt.counted, holders, holders']
    simp only [List.cons_append, List.count_append, List.count_cons]
    omega
  · rw [holders'] at member
    rcases List.mem_cons.mp member with rfl | member
    · exact isAt.cached _ isAt.root_mem
    rcases List.mem_cons.mp member with rfl | member
    · exact refers.cached
    · refine isAt.cached q ?_
      rw [holders]
      exact .tail _ (List.mem_append_right _ member)

/-- The table of files changes, and with it who holds what. -/
theorem refile {held' : List Nat} {m' : Nat → Option File} {files : Nat → Option Handle} (isAt : IsAt disk t p held w)
    (balanced : (held' ++ table.inodes).Perm (held ++ w.state.fdTable.inodes))
    (cached : ∀ o ∈ table.inodes, o ∈ w.state.icache) (is : table.Represents m')
    (opened : ∀ fd, Option.Rel (IsFile t w) (m' fd) (files fd)) :
    IsAt disk t { p with files := files } held' (withFiles w table) := by
  obtain ⟨view, pictured⟩ := isAt.pictured
  have holders := mounted_holders isAt.mounted
  have holders' : (withFiles w table).state.holders = w.state.rootInode :: (w.state.cwd.toList ++ table.inodes) :=
    mounted_holders (w := withFiles w table) isAt.mounted
  refine ⟨⟨view, (recounts_withFiles w table).pictures pictured⟩, isAt.anchored, fun q => ?_, fun q member => ?_, isAt.root,
    isAt.cwd, isAt.isDir, m', is, fun fd => opened_later (opened fd) fun _ _ => rfl⟩
  · have same := balanced.count_eq q
    change w.state.refs q = _
    rw [isAt.counted, holders, holders']
    simp only [List.count_append, List.count_cons] at same ⊢
    omega
  · rw [holders'] at member
    rcases List.mem_cons.mp member with rfl | member
    · exact isAt.cached _ isAt.root_mem
    rcases List.mem_append.mp member with inCwd | inTable
    · refine isAt.cached q ?_
      rw [holders]
      exact .tail _ (List.mem_append_left _ inCwd)
    · exact cached q inTable

theorem cached_inodes (isAt : IsAt disk t p held w) : ∀ o ∈ w.state.fdTable.inodes, o ∈ w.state.icache := by
  intro o member
  refine isAt.cached o ?_
  rw [mounted_holders isAt.mounted]
  exact .tail _ (List.mem_append_right _ member)

/-- One descriptor changes on both sides. -/
theorem opened_update {files : Nat → Option Handle} {left : Option File} {right : Option Handle}
    (opened : ∀ fd, Option.Rel (IsFile t w) (m fd) (files fd)) (here : Option.Rel (IsFile t w) left right) (fd n : Nat) :
    Option.Rel (IsFile t w) (Function.update m fd left n) (Function.update files fd right n) := by
  by_cases same : n = fd
  · rw [same, Function.update_self, Function.update_self]
    exact here
  · rw [Function.update_of_ne same, Function.update_of_ne same]
    exact opened n

/-- The reference goes to the table. -/
theorem insert (isAt : IsAt disk t p (o :: held) w) (refers : Refers w o ino) (inTree : (t.node ino).isSome)
    {accmode : Nat} (inserted : w.state.fdTable.insertFile ⟨0, accmode, o, 0⟩ = some (fd, table)) :
    IsAt disk t (p.setFile fd (some ⟨ino, 0⟩)) held (withFiles w table) := by
  obtain ⟨m, is, opened⟩ := isAt.files
  obtain ⟨-, -, -, is'⟩ := is.insertFile inserted
  have more := FdTable.inodes_insertFile inserted
  refine isAt.refile ((more.append_left held).trans List.perm_middle) (fun q member => ?_) is'
    (opened_update opened (.some ⟨refers.ino, inTree, rfl, fun _ => Nat.zero_le _⟩) fd)
  rcases List.mem_cons.mp (more.mem_iff.mp member) with rfl | inside
  · exact refers.cached
  · exact isAt.cached_inodes q inside

/-- The table gives the reference back. -/
theorem remove (isAt : IsAt disk t p held w) (removed : w.state.fdTable.removeFile fd = some (file, table)) :
    IsAt disk t (p.setFile fd none) (file.inode :: held) (withFiles w table) := by
  obtain ⟨m, is, opened⟩ := isAt.files
  obtain ⟨-, is'⟩ := is.removeFile removed
  have fewer := FdTable.inodes_removeFile removed
  refine isAt.refile ?_ (fun q member => isAt.cached_inodes q (fewer.mem_iff.mpr (.tail _ member))) is'
    (opened_update opened .none fd)
  exact (List.perm_middle.symm).trans (fewer.symm.append_left held)

theorem inodes_setPos (table : FdTable) (fd : Nat) (pos : Int) : (table.setPos fd pos).inodes = table.inodes := by
  unfold FdTable.inodes
  refine List.flatMap_congr fun b _ => ?_
  by_cases here : b = fd % FdTable.tableSize
  · subst here
    simp only [FdTable.setPos, Function.update_self, List.map_map]
    refine List.map_congr_left fun file _ => ?_
    simp only [Function.comp_apply]
    split <;> rfl
  · simp only [FdTable.setPos, Function.update_of_ne here]

/-- The position of a file changes. -/
theorem seek {slot : Nat} (isAt : IsAt disk t p held w) (known : w.state.fdTable.getFile fd = some file)
    (is : p.files fd = some handle) (inside : t.isDir handle.ino = true → slot ≤ (t.slots handle.ino).length) :
    IsAt disk t (p.setFile fd (some { handle with slot := slot })) held
      (withFiles w (w.state.fdTable.setPos fd (64 * slot : Nat))) := by
  obtain ⟨m, represents, opened⟩ := isAt.files
  rw [represents.getFile] at known
  have here := opened fd
  rw [known, is] at here
  refine isAt.refile (by rw [inodes_setPos]) (fun q member => isAt.cached_inodes q (by rwa [inodes_setPos] at member))
    (represents.setPos fd (64 * slot : Nat)) (opened_update opened ?_ fd)
  rw [known]
  cases here with
  | some isFile => exact .some ⟨isFile.ino, isFile.inTree, rfl, inside⟩

end IsAt

end Invariant

section Steps

variable {held : List Nat} {fd : Int}

theorem meets_returning {α : Type} {f : α → Value} {q : FsM (Except Errno α)} {post : Result → World Fs → Prop} :
    Meets disk allowed (returning f q) post w ↔ Meets disk allowed q (fun r w' => post (r.map f) w') w := by
  unfold returning
  rw [meets_bind]
  rfl

/-- The file of a descriptor, if it has one. -/
theorem IsAt.meets_getFile {post : Option File → World Fs → Prop} (isAt : IsAt disk t p held w)
    (none : p.file fd = none → post none w) (some : ∀ (n : Nat) file handle, fd = n →
      w.state.fdTable.getFile n = some file → p.files n = some handle → IsFile t w file handle → file.fd = n →
      file.inode ∈ w.state.holders → post (some file) w) :
    Meets disk allowed (FsM.getFile fd) post w := by
  obtain ⟨m, is, opened⟩ := isAt.files
  rw [FsM.getFile, meets_bind, meets_get, meets_pure]
  rcases Int.lt_or_le fd 0 with negative | positive
  · rw [FdTable.getFile, if_pos negative]
    exact none (if_pos negative)
  obtain ⟨n, rfl⟩ := Int.eq_ofNat_of_zero_le positive
  have here := opened n
  rw [Place.file_natCast] at none
  generalize known : p.files n = right at here none
  generalize file : m n = left at here
  have got := (is.getFile n).trans file
  rw [got]
  cases here with
  | none => exact none rfl
  | some isFile => exact some _ _ _ rfl got known isFile (is.named n _ file) (isAt.file_mem is file)

theorem IsAt.enters (isAt : IsAt disk t p held w) (missing : Result → Prop) (refers : Refers w o ino)
    (inTree : (t.node ino).isSome) :
    Meets disk allowed (chdirInode o) (fun r w' => o ∈ w'.state.icache ∧
      ∃ p', Enters t p missing (some ino) (r.map fun _ => .done) p' ∧ IsAt disk t p' held w') w := by
  obtain ⟨view, pictured⟩ := isAt.pictured
  obtain ⟨node, found⟩ := Option.isSome_iff_exists.mp inTree
  unfold chdirInode Enters
  rw [meets_bind, meets_inode (refers.live pictured), refers.isDir_eq pictured found]
  dsimp only
  cases isDir : t.isDir ino with
  | false => exact ⟨refers.cached, p, ⟨rfl, rfl⟩, isAt⟩
  | true =>
    simp only [Bool.not_true, Bool.false_eq_true, if_false, if_true]
    rw [meets_bind]
    refine ((get_recounts pictured refers.cached).and_after (next_le _)).mono ?_
    rintro _ w₁ ⟨⟨recounts, goes, refers₁⟩, next⟩
    rw [refers.ino] at refers₁
    have isAt₁ := isAt.goes ⟨view, recounts.pictures pictured⟩ goes next
    have entered := isAt₁.enter refers₁ isDir
    rw [meets_bind, meets_get]
    cases cwd : w₁.state.cwd with
    | none =>
      rw [cwd] at entered
      exact ⟨refers₁.cached, _, ⟨rfl, rfl⟩, entered⟩
    | some old =>
      rw [cwd] at entered
      have cached := isAt₁.cached _ isAt₁.cwd_mem
      rw [cwd] at cached
      -- the old directory is given back before the new one is set, which makes no difference
      have used := isAt₁.used isAt₁.cwd_mem
      rw [cwd] at used
      dsimp only
      rw [meets_bind]
      refine (put_meets (recounts.pictures pictured) cached used).mono ?_
      rintro _ _ rfl
      exact ⟨refers₁.cached, _, ⟨rfl, rfl⟩, entered.drop cached⟩

theorem IsAt.fstats (isAt : IsAt disk t p held w) : Meets disk allowed (fstat fd)
    (fun r w' => Tells t p (· = .error .ebadf) (p.inode fd) (r.map .stat) p ∧ IsAt disk t p held w') w := by
  obtain ⟨view, pictured⟩ := isAt.pictured
  unfold fstat Tells Place.inode
  rw [meets_bind]
  refine isAt.meets_getFile (fun closed => ?_) ?_
  · rw [closed]
    exact ⟨⟨rfl, rfl⟩, isAt⟩
  · rintro n file handle rfl - known isFile - holder
    rw [Place.file_natCast]
    have refers := isAt.refers holder
    obtain ⟨node, found⟩ := Option.isSome_iff_exists.mp isFile.inTree
    rw [isFile.ino] at refers
    dsimp only
    rw [known, meets_bind, statInode, meets_bind, meets_get, meets_bind, meets_inode (refers.live pictured), meets_pure]
    exact ⟨⟨rfl, _, rfl, isFile.ino, refers.isDir_eq pictured found⟩, isAt⟩

theorem IsAt.fchdirs (isAt : IsAt disk t p held w) : Meets disk allowed (fchdir fd)
    (fun r w' => ∃ p', Enters t p (· = .error .ebadf) (p.inode fd) (r.map fun _ => .done) p' ∧ IsAt disk t p' held w') w := by
  unfold fchdir Place.inode
  rw [meets_bind]
  refine isAt.meets_getFile (fun closed => ?_) ?_
  · rw [closed]
    exact ⟨p, ⟨rfl, rfl⟩, isAt⟩
  · rintro n file handle rfl - known isFile - holder
    have refers := isAt.refers holder
    rw [isFile.ino] at refers
    rw [Place.file_natCast, known]
    exact (isAt.enters _ refers isFile.inTree).mono fun r w' entered => entered.2

theorem IsAt.closes (isAt : IsAt disk t p held w) (valid : 0 ≤ fd) : Meets disk allowed (close fd) (fun r w' => ∃ p',
    Closes p fd (r.map fun _ => .done) p' ∧ IsAt disk t p' held w') w := by
  obtain ⟨n, rfl⟩ := Int.eq_ofNat_of_zero_le valid
  have files := isAt.files
  obtain ⟨m, is, opened⟩ := files
  have here := opened n
  unfold close Closes
  rw [meets_bind, meets_get, if_neg (by omega), Int.toNat_natCast, Place.file_natCast]
  cases removed : w.state.fdTable.removeFile n with
  | none =>
    rw [is.removeFile_none removed] at here
    generalize known : p.files n = right at here
    cases here
    exact ⟨p, ⟨rfl, rfl⟩, isAt⟩
  | some both =>
    obtain ⟨file, table⟩ := both
    obtain ⟨found, -⟩ := is.removeFile removed
    have cached := isAt.cached _ (isAt.file_mem is found)
    have removal := isAt.remove removed
    rw [found] at here
    generalize known : p.files n = right at here
    dsimp only
    rw [meets_bind, meets_modify, meets_bind]
    cases here
    refine (removal.put cached).mono ?_
    rintro _ _ rfl
    exact ⟨_, ⟨rfl, rfl⟩, removal.drop cached⟩

theorem IsAt.rewinds (isAt : IsAt disk t p held w) : Meets disk allowed (lseek fd 0 .set) (fun r w' => ∃ p',
    Rewinds p fd (r.map .number) p' ∧ IsAt disk t p' held w') w := by
  obtain ⟨view, pictured⟩ := isAt.pictured
  unfold lseek Rewinds
  rw [meets_bind]
  refine isAt.meets_getFile (fun closed => ?_) ?_
  · dsimp only
    rw [closed]
    exact ⟨p, ⟨rfl, rfl⟩, isAt⟩
  · rintro n file handle rfl got known isFile fdOf holder
    have live := (isAt.refers holder).live pictured
    dsimp only
    rw [meets_bind, meets_inode live, meets_bind, setPos, meets_modify, fdOf, Place.file_natCast, known]
    have sought := @seek _ _ _ _ _ _ _ _ 0 isAt got known fun _ => Nat.zero_le _
    exact ⟨_, ⟨rfl, rfl⟩, sought⟩

variable (known : ∀ d, t.isDir d = true → ∀ slot ∈ t.slots d, slot.2 ≠ 0 → (t.node slot.2).isSome) in
include known in
theorem IsAt.lists {count : Int} (reliable : Reliable disk) (room : (sizeofDirent : Int) + 61 < count)
    (isAt : IsAt disk t p held w) : Meets disk allowed (getdents fd count) (fun r w' => ∃ p',
      Lists t p fd (r.map fun r => .dirents r.1 r.2) p' ∧ IsAt disk t p' held w') w := by
  obtain ⟨view, pictured⟩ := isAt.pictured
  unfold getdents Lists
  rw [if_neg (by unfold sizeofDirent; unfold sizeofDirent at room; omega), meets_bind]
  refine isAt.meets_getFile (fun closed => ?_) ?_
  · dsimp only
    rw [closed]
    exact ⟨p, ⟨rfl, rfl⟩, isAt⟩
  rintro n file handle rfl got opened isFile fdOf holder
  rw [Place.file_natCast, Int.toNat_natCast]
  have refers := isAt.refers holder
  rw [isFile.ino] at refers
  obtain ⟨node, found⟩ := Option.isSome_iff_exists.mp isFile.inTree
  dsimp only
  rw [meets_bind, meets_inode (refers.live pictured), refers.isDir_eq pictured found, opened]
  dsimp only
  cases isDir : t.isDir handle.ino with
  | false => exact ⟨p, ⟨rfl, rfl⟩, isAt⟩
  | true =>
    obtain ⟨parent, entries, dir⟩ := FileTree.isDir_iff.mp isDir
    have directory := refers.directory dir pictured
    have length := directory.length
    have size := directory.size
    have whole := directory.whole
    have inside := isFile.inside isDir
    have pos := isFile.pos
    have same : { handle with slot := handle.slot } = handle := rfl
    simp only [Bool.not_true, Bool.false_eq_true, if_false, if_true]
    split
    · rename_i done
      have last : handle.slot = (t.slots handle.ino).length := by omega
      refine ⟨p, ⟨[], 0, rfl, ⟨by simp [live], by simp, by omega, fun _ => last⟩, ?_⟩, isAt⟩
      rw [Nat.add_zero, Place.setFile, ← opened, Function.update_eq_self]
    · rw [meets_bind]
      refine (iterateDir_emits reliable isAt.anchored (known _ isDir) pictured pictured.linked directory pos (by omega) rfl
        (by unfold sizeofDirent at room; dsimp only; omega)).mono ?_
      rintro r w₁ ⟨⟨view₁, browses⟩, ctx, m, rfl, emits, bound, full⟩
      obtain ⟨rs, records, entries, sized, used⟩ := emits.records
      obtain rfl : ctx.records = rs := records
      have isAt₁ := isAt.goes ⟨view₁, browses.pictured⟩ browses.goes browses.next
      have pos' : ctx.pos = (64 * (handle.slot + m) : Nat) := by
        have moved := emits.pos
        dsimp only at moved
        omega
      rw [Nat.zero_add] at used
      dsimp only
      rw [emits.error]
      dsimp only
      rw [meets_bind, setPos, meets_modify, meets_pure, used, fdOf, pos']
      refine ⟨_, ⟨ctx.records, m, rfl, ⟨entries, sized, bound, fun none => ?_⟩, rfl⟩,
        isAt₁.seek (browses.goes.fdTable ▸ got) opened fun _ => bound⟩
      rw [none] at used
      have := mt full (not_not_intro used)
      omega

/-- The least free descriptor gets the file, or the inode is put back. -/
theorem IsAt.opensFile {ino : Nat} (isAt : IsAt disk t p (o :: held) w) (refers : Refers w o ino)
    (inTree : (t.node ino).isSome) : Meets disk allowed (openFile o 0) (fun r w' => ∃ p',
      Opens p (some ino) (r.map fun fd : Nat => .number fd) p' ∧ IsAt disk t p' held w') w := by
  obtain ⟨m, is, opened⟩ := isAt.files
  have free : ∀ fd, (m fd).isSome = (p.files fd).isSome := by
    intro fd
    have here := opened fd
    generalize p.files fd = right at here
    generalize m fd = left at here
    cases here <;> rfl
  unfold openFile
  rw [meets_bind, meets_get]
  cases inserted : w.state.fdTable.insertFile ⟨0, 0, o, 0⟩ with
  | none =>
    have full : ∀ fd, ¬ p.Free fd := by
      rintro fd ⟨assignable, unused⟩
      have known := is.insertFile_none inserted fd assignable
      rw [free, unused] at known
      cases known
    dsimp only
    rw [meets_bind]
    refine (isAt.put refers.cached).mono ?_
    rintro _ _ rfl
    exact ⟨p, .inr ⟨full, rfl, rfl⟩, isAt.drop refers.cached⟩
  | some place =>
    obtain ⟨fd, table⟩ := place
    obtain ⟨assignable, unused, least, -⟩ := is.insertFile inserted
    have isLeast : IsLeast (fun fd => p.Free fd) fd := by
      refine ⟨⟨assignable, by simpa [unused] using (free fd).symm⟩, fun other isFree => ?_⟩
      by_contra less
      have known := least other (Nat.not_le.mp less) isFree.1
      rw [free, isFree.2] at known
      cases known
    exact ⟨_, .inl ⟨fd, isLeast, rfl, rfl⟩, isAt.insert refers inTree inserted⟩

section Paths

variable (reliable : Reliable disk) (wellFormed : t.WellFormed) (noNull : 0 ∉ path)
include reliable wellFormed noNull

theorem IsAt.stats (isAt : IsAt disk t p held w) (follow : Bool) : Meets disk allowed (statPath path follow)
    (fun r w' => Tells t p IsError (p.resolve t path follow) (r.map .stat) p ∧ IsAt disk t p held w') w := by
  obtain ⟨view, pictured⟩ := isAt.pictured
  refine ((statPath_tells reliable wellFormed pictured isAt.rooted isAt.refersCwd isAt.isDir noNull follow).and_after
    (next_le _)).mono ?_
  rintro r w' ⟨⟨pictured', goes, told⟩, next⟩
  refine ⟨⟨rfl, ?_⟩, isAt.goes pictured' goes next⟩
  unfold Place.resolve
  cases led : t.resolve maxDepth p.cwd (routeOf path) follow with
  | none =>
    rw [led] at told
    obtain ⟨e, rfl⟩ := told
    exact ⟨e, rfl⟩
  | some ino =>
    rw [led] at told
    obtain ⟨s, rfl, same, mode⟩ := told
    exact ⟨s, rfl, same, mode⟩

theorem IsAt.chdirs (isAt : IsAt disk t p held w) : Meets disk allowed (chdir path) (fun r w' => ∃ p',
    Enters t p IsError (p.resolve t path true) (r.map fun _ => .done) p' ∧ IsAt disk t p' held w') w := by
  obtain ⟨view, pictured⟩ := isAt.pictured
  unfold chdir Place.resolve
  rw [meets_bind]
  refine ((pathwalkStep123_leads reliable wellFormed pictured isAt.rooted isAt.refersCwd isAt.isDir noNull true).and_after
    (next_le _)).mono ?_
  rintro r w₁ ⟨⟨view₁, pictured₁, reached⟩, next⟩
  cases led : t.resolve maxDepth p.cwd (routeOf path) true with
  | none =>
    rw [led] at reached
    obtain ⟨⟨e, rfl⟩, goes⟩ := reached
    exact ⟨p, ⟨⟨e, rfl⟩, rfl⟩, isAt.goes ⟨view₁, pictured₁⟩ goes next⟩
  | some ino =>
    rw [led] at reached
    obtain ⟨inTree, o, rfl, goes, refers⟩ := reached
    have isAt₁ := isAt.goes ⟨view₁, pictured₁⟩ goes next
    dsimp only
    rw [meets_bind]
    refine (isAt₁.enters IsError refers inTree).mono ?_
    rintro r w₂ ⟨cached, p', enters, isAt₂⟩
    rw [meets_bind]
    refine (isAt₂.put cached).mono ?_
    rintro _ _ rfl
    exact ⟨p', enters, isAt₂.drop cached⟩

/-- Whatever the path leads to is opened if there is a free descriptor. -/
theorem IsAt.opens (isAt : IsAt disk t p held w) : Meets disk allowed (VFS.open path Flags.rdonly) (fun r w' => ∃ p',
    Opens p (p.resolve t path true) (r.map fun fd : Nat => .number fd) p' ∧ IsAt disk t p' held w') w := by
  obtain ⟨view, pictured⟩ := isAt.pictured
  unfold VFS.open
  rw [meets_bind, meets_get, pictured.mounted]
  simp only [Bool.not_true, Bool.false_eq_true, if_false, Flags.rdonly, Nat.zero_and, ne_eq, not_true_eq_false,
    false_and, and_false]
  unfold pathwalkStep12
  rw [meets_bind, meets_bind, meets_get]
  refine ((pathwalkStep12With_arrives reliable wellFormed (expands_resolveSymlink reliable wellFormed maxDepth)
    (keeps_expand t maxDepth) pictured isAt.rooted isAt.refersCwd isAt.isDir noNull).and_after (next_le _)).mono ?_
  rintro r w₁ ⟨arrives, next₁⟩
  cases r with
  | error e =>
    obtain ⟨nowhere, view₁, pictured₁, -, goes₁⟩ := arrives
    have none : p.resolve t path true = none := nowhere true
    rw [none]
    exact ⟨p, ⟨⟨e, rfl⟩, rfl⟩, isAt.goes ⟨view₁, pictured₁⟩ goes₁ next₁⟩
  | ok path' =>
    obtain ⟨final, at_, ⟨pictured₁, refers₁, isDir₁, goes₁, -, noNull₁⟩, same⟩ := arrives
    have goal : p.resolve t path true = reach t (t.expand maxDepth) true at_ path'.pathname := same true
    obtain ⟨view₁, pictured₁⟩ := pictured₁
    dsimp only
    rw [meets_bind]
    refine ((get_recounts pictured₁ refers₁.cached).and_after (next_le _)).mono ?_
    rintro _ w₂ ⟨⟨recounts, goes₂, refers₂⟩, next₂⟩
    rw [refers₁.ino] at refers₂
    have goes := goes₁.more goes₂
    rw [meets_bind]
    refine ((pathwalkStep3_leads reliable wellFormed (expands_resolveSymlink reliable wellFormed maxDepth)
      (keeps_expand t maxDepth) final noNull₁ (recounts.pictures pictured₁) (goes.rooted isAt.rooted) refers₂ isDir₁
      goes).and_after (next_le _)).mono ?_
    rintro r w₃ ⟨⟨view₃, pictured₃, reached⟩, next₃⟩
    have next := next₁.trans (next₂.trans next₃)
    rw [goal]
    cases led : reach t (t.expand maxDepth) true at_ path'.pathname with
    | none =>
      rw [led] at reached
      obtain ⟨⟨e, rfl⟩, goes₃⟩ := reached
      have isAt₃ := isAt.goes ⟨view₃, pictured₃⟩ goes₃ next
      have cached := goes₃.cached _ (.head _)
      simp only [if_true]
      split
      all_goals
        rw [meets_bind]
        refine (isAt₃.put cached).mono ?_
        rintro _ _ rfl
        exact ⟨p, ⟨⟨_, rfl⟩, rfl⟩, isAt₃.drop cached⟩
    | some ino =>
      rw [led] at reached
      obtain ⟨inTree, o, rfl, goes₃, refers₃⟩ := reached
      obtain ⟨node, found⟩ := Option.isSome_iff_exists.mp inTree
      dsimp only
      rw [meets_bind]
      refine ((put_goes pictured₃ (goes₃.perm (.swap _ _ _))).and_after (next_le _)).mono ?_
      rintro _ w₄ ⟨⟨pictured₄, goes₄, -, still⟩, next₄⟩
      have refers₄ := still o ino (.head _) refers₃
      have isAt₄ := isAt.goes ⟨view₃, pictured₄⟩ goes₄ (next.trans next₄)
      have mode := refers₄.isDir_eq pictured₄ found
      unfold checkOpen
      rw [meets_bind, meets_bind, meets_inode (refers₄.live pictured₄), mode]
      simp only [Nat.zero_and, ne_eq, not_true_eq_false, if_false]
      have isDirectory : ¬ (hasSlash path'.pathname && !t.isDir ino) = true := by
        cases isDir : t.isDir ino with
        | true => simp
        | false => simp [final.noSlash led isDir]
      rw [if_neg isDirectory, if_neg fun writes => absurd writes.2 (by decide), meets_pure]
      dsimp only
      exact isAt₄.opensFile refers₄ inTree

end Paths

/-- One call returns what the machine returns. -/
theorem visit_sees (reliable : Reliable disk) (wellFormed : t.WellFormed)
    (known : ∀ d, t.isDir d = true → ∀ slot ∈ t.slots d, slot.2 ≠ 0 → (t.node slot.2).isSome) (isAt : IsAt disk t p held w)
    (visit : Visit) (valid : visit.Valid) : Meets disk allowed visit.op.call (fun r w' => ∃ p', Sees t p visit r p' ∧
      IsAt disk t p' held w') w := by
  cases visit with
  | chdir path => exact meets_returning.mpr (isAt.chdirs reliable wellFormed valid)
  | fchdir fd => exact meets_returning.mpr isAt.fchdirs
  | stat path => exact meets_returning.mpr ((isAt.stats reliable wellFormed valid true).mono fun _ _ seen => ⟨p, seen⟩)
  | lstat path => exact meets_returning.mpr ((isAt.stats reliable wellFormed valid false).mono fun _ _ seen => ⟨p, seen⟩)
  | fstat fd => exact meets_returning.mpr (isAt.fstats.mono fun _ _ seen => ⟨p, seen⟩)
  | «open» path => exact meets_returning.mpr (isAt.opens reliable wellFormed valid)
  | close fd => exact meets_returning.mpr (isAt.closes valid)
  | getdents fd count =>
    unfold Sees
    refine meets_returning.mpr ?_
    dsimp only
    split
    · rename_i small
      unfold getdents
      rw [if_pos small]
      exact ⟨p, ⟨rfl, rfl⟩, isAt⟩
    · rename_i large
      exact isAt.lists known reliable (Or.resolve_left valid large)
  | rewind fd => exact meets_returning.mpr isAt.rewinds

end Steps

/-- Whatever is called one after the other, the results are those of the machine on the tree, and then the file system
is at the place of the machine. -/
theorem visits_tour (disk : Disk Errno) (reliable : Reliable disk) (t : SlotTree) (wellFormed : t.WellFormed)
    (known : ∀ d, t.isDir d = true → ∀ slot ∈ t.slots d, slot.2 ≠ 0 → (t.node slot.2).isSome) (visits : List Visit)
    (valid : ∀ visit ∈ visits, visit.Valid) (p : Place) (w : World Fs) (isAt : IsAt disk t p [] w) :
    Returns disk (calls (visits.map Visit.op)) (fun results w' => ∃ p', Tour t p visits results p' ∧
      IsAt disk t p' [] w') w := by
  induction visits generalizing p w with
  | nil => exact ⟨p, .nil p, isAt⟩
  | cons visit visits ih =>
    rw [List.map_cons, calls]
    refine meets_bind.mpr ((visit_sees reliable wellFormed known isAt visit (valid visit (.head _))).mono ?_)
    rintro r w₁ ⟨p₁, sees, isAt₁⟩
    refine meets_bind.mpr ((ih (fun visit' member => valid visit' (.tail _ member)) p₁ w₁ isAt₁).mono ?_)
    rintro results w₂ ⟨p₂, rest, isAt₂⟩
    exact ⟨p₂, .cons sees rest, isAt₂⟩

section Images

open SmallImage in
/-- After the mount, with its files closed, the process is at the root. -/
theorem small_isAt : ∃ w, SmallMounted w ∧ IsAt ⟨true, neverFails⟩ smallTree ⟨1, fun _ => none⟩ [] w := by
  obtain ⟨w, mounted, is⟩ := small_mounted
  have counted : w.state.allocated = 1 ∧ w.state.rootInode = 0 ∧ w.state.refs 0 = 1 := by
    obtain ⟨_, w', mounted', checked⟩ := ran_of_any ⟨true, neverFails⟩ (Minix.mount 10 .all) (.initial withTree)
      (fun _ w => decide (w.state.allocated = 1 ∧ w.state.rootInode = 0 ∧ w.state.refs 0 = 1)) (by decide +kernel)
    rw [mounted] at mounted'
    cases mounted'
    exact of_decide_eq_true checked
  obtain ⟨allocated, root, once⟩ := counted
  have anchored := mount_anchored mounted
  have cwd : w.state.cwd = none := is.cwd
  have started : SmallMounted (withFiles ⟨{ w.state with mounted := true }, w.device⟩ .empty) :=
    ⟨(recounts_withFiles _ _).pictures is.pictured, ⟨is.rooted.cached, is.rooted.ino, is.rooted.used⟩, is.cwd⟩
  have holders : (withFiles ⟨{ w.state with mounted := true }, w.device⟩ .empty).state.holders = [w.state.rootInode] := by
    rw [mounted_holders rfl]
    change w.state.rootInode :: (w.state.cwd.toList ++ FdTable.empty.inodes) = _
    rw [cwd]
    rfl
  refine ⟨_, started, ⟨_, started.pictured⟩, anchored, fun o => ?_, fun o member => ?_, is.rooted.ino,
    started.refers.ino, rfl, _, FdTable.represents_empty, fun _ => .none⟩
  · rw [holders, root]
    change w.state.refs o = _
    by_cases first : o = 0
    · rw [first, once]
      rfl
    · rw [Fs.refs_of_le (by omega), List.nil_append, List.count_singleton, if_neg (by simpa using Ne.symm first)]
  · rw [holders, List.mem_singleton] at member
    rw [member]
    exact is.rooted.cached

/-- Into `a` through the link, whose listing ends after three entries, and out again through the open directory. -/
theorem small_tour : ∃ w, SmallMounted w ∧ Returns ⟨true, neverFails⟩ (calls ([.open [slash], .chdir nameL, .open dotName,
    .stat nameB, .getdents 1 4096, .getdents 1 4096, .fchdir 0, .stat nameB, .close 1, .getdents 1 4096,
    .getdents 0 10, .fstat (-1)].map Visit.op))
      (fun results w' => ∃ p', Tour smallTree ⟨1, fun _ => none⟩ [.open [slash], .chdir nameL, .open dotName, .stat nameB,
        .getdents 1 4096, .getdents 1 4096, .fchdir 0, .stat nameB, .close 1, .getdents 1 4096, .getdents 0 10,
        .fstat (-1)] results p' ∧
          IsAt ⟨true, neverFails⟩ smallTree p' [] w') w := by
  obtain ⟨w, is, isAt⟩ := small_isAt
  refine ⟨w, is, visits_tour ⟨true, neverFails⟩ (fun _ _ => rfl) smallTree smallTree_wellFormed ?_ _ ?_ _ w isAt⟩
  · intro d isDir
    have dirs : d = 1 ∨ d = 2 ∨ d = 3 := by
      rcases d with _ | _ | _ | _ | _ | d <;> first | omega | cases isDir
    rcases dirs with rfl | rfl | rfl <;> decide
  · simp only [List.forall_mem_cons, List.not_mem_nil, false_implies, implies_true, and_true, Visit.Valid]
    decide

end Images

end MPStuBS.VFS
