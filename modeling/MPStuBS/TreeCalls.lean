import MPStuBS.DirectoryListing

/-! What `stat`, `open`, `close` and `chdir` do on a file system that holds a tree. -/
namespace MPStuBS

/-- The counter of the blocks that were fixed never goes back. -/
theorem Prog.next_le {σ ε φ α : Type} {disk : Disk ε} (p : Prog σ ε φ α) :
    ∀ {w}, After disk p (fun _ w' => w.device.next ≤ w'.device.next) w := by
  unfold After Meets
  induction p with
  | pure a => exact fun {w} => Nat.le_refl _
  | fault f => exact trivial
  | get k ih => exact fun {w} => ih w.state
  | set s k ih => exact fun {w} => ih (w := { w with state := s })
  | load block k ih => exact fun {w} => ih _
  | command block c k ih =>
    intro w
    have later := ih (w := { w with device := w.device.exec disk block c })
    simp only [Device.next_exec] at later
    exact later
  | fix number k ih =>
    intro w
    unfold run
    cases failure : disk.fails w.device.clock number with
    | some e => exact ih _ (w := { w with device := w.device.tick })
    | none =>
      have later := ih (.ok w.device.next) (w := { w with device := (w.device.hold number).tick })
      dsimp only
      split at later
      · exact (Nat.le_succ _).trans later
      · trivial

namespace VFS

open Prog FsM Minix Filesystem

variable {disk : Disk Errno} {allowed : FsFault → Prop} {t : SlotTree} {w w' w'' : World Fs} {view view' : Nat → Bytes}
  {held : List Nat} {o ino at_ : Nat} {path : PathName}

section Tables

/-- Like `Goes`, whatever happens to the table of files. -/
def GoesOn (w w' : World Fs) (held : List Nat) : Prop := Goes (withFiles w .empty) (withFiles w' .empty) held

theorem Goes.withFiles (goes : Goes (withFiles w .empty) (withFiles w' .empty) held) (table : FdTable) :
    Goes (withFiles w table) (withFiles w' table) held :=
  ⟨⟨goes.volume.mounted, goes.volume.super, goes.volume.blocksizeBits, goes.volume.imap, goes.volume.zmap,
    goes.volume.rootInode, goes.volume.superBlock⟩, goes.cwd, rfl, goes.allocated, goes.refs, goes.used, goes.cached⟩

theorem Goes.on (goes : Goes w w' held) (table : FdTable) : GoesOn w (VFS.withFiles w' table) held :=
  ⟨⟨goes.volume.mounted, goes.volume.super, goes.volume.blocksizeBits, goes.volume.imap, goes.volume.zmap,
    goes.volume.rootInode, goes.volume.superBlock⟩, goes.cwd, rfl, goes.allocated, goes.refs, goes.used, goes.cached⟩

theorem GoesOn.none (goes : GoesOn w w' held) (more : GoesOn w' w'' []) : GoesOn w w'' held := Goes.none goes more

theorem GoesOn.volume (goes : GoesOn w w' held) : w.state.SameVolume w'.state := by
  obtain ⟨mounted, super, bits, imap, zmap, root, block⟩ := @Goes.volume _ _ _ goes
  exact ⟨mounted, super, bits, imap, zmap, root, block⟩

theorem GoesOn.cwd (goes : GoesOn w w' held) :
    w'.state.cwd.getD w'.state.rootInode = w.state.cwd.getD w.state.rootInode := by
  have cwd : (withFiles w' .empty).state.cwd = (withFiles w .empty).state.cwd := Goes.cwd goes
  rw [goes.volume.rootInode]
  exact congrArg (Option.getD · _) cwd

theorem Anchored.later (anchored : Anchored w) (imap : w'.state.imap = w.state.imap) (zmap : w'.state.zmap = w.state.zmap)
    (next : w.device.next ≤ w'.device.next) : Anchored w' := by
  intro i
  rw [imap, zmap]
  exact ⟨Nat.lt_of_lt_of_le (anchored i).1 next, Nat.lt_of_lt_of_le (anchored i).2 next⟩

theorem GoesOn.refers (goes : GoesOn w w' held) (refers : Refers w o ino) : Refers w' o ino := by
  have refers' : Refers (withFiles w' .empty) o ino :=
    Goes.refers goes ⟨refers.cached, refers.ino, refers.used⟩
  exact ⟨refers'.cached, refers'.ino, refers'.used⟩

theorem GoesOn.rooted (goes : GoesOn w w' held) (rooted : Rooted t w) : Rooted t w' := by
  unfold Rooted
  rw [goes.volume.rootInode]
  exact goes.refers rooted

end Tables

section Stat

variable (reliable : Reliable disk) (wellFormed : t.WellFormed) (pictured : Pictures disk t w view) (rooted : Rooted t w)
  (refers : Refers w (w.state.cwd.getD w.state.rootInode) at_) (isDir : t.isDir at_ = true) (noNull : 0 ∉ path)
include reliable wellFormed pictured rooted refers isDir noNull

/-- The status is that of what the path leads to. -/
theorem statPath_tells (follow : Bool) : Meets disk allowed (statPath path follow) (fun r w' =>
    (∃ view', Pictures disk t w' view') ∧ Goes w w' [] ∧ match t.resolve maxDepth at_ (routeOf path) follow with
      | none => ∃ e, r = .error e
      | some ino => ∃ s, r = .ok s ∧ s.ino = ino ∧ Mode.isDir s.mode = t.isDir ino) w := by
  rw [statPath, meets_bind]
  refine (pathwalkStep123_leads reliable wellFormed pictured rooted refers isDir noNull follow).mono ?_
  rintro r w₁ ⟨view₁, pictured₁, reached⟩
  cases led : t.resolve maxDepth at_ (routeOf path) follow with
  | none =>
    rw [led] at reached
    obtain ⟨⟨e, rfl⟩, goes⟩ := reached
    exact ⟨⟨view₁, pictured₁⟩, goes, e, rfl⟩
  | some ino =>
    rw [led] at reached
    obtain ⟨inTree, o, rfl, goes, refers'⟩ := reached
    obtain ⟨node, found⟩ := Option.isSome_iff_exists.mp inTree
    dsimp only
    rw [statInode, meets_bind, meets_bind, meets_get, meets_bind, meets_inode (refers'.live pictured₁), meets_pure,
      meets_bind]
    refine (put_goes pictured₁ goes).mono ?_
    rintro _ w₂ ⟨pictured₂, goes₂, -⟩
    exact ⟨⟨view₁, pictured₂⟩, goes₂, _, rfl, refers'.ino, refers'.isDir_eq pictured₁ found⟩

/-- A directory is opened for reading if there is a free descriptor. -/
theorem open_opens (led : t.resolve maxDepth at_ (routeOf path) true = some ino) (dir : t.isDir ino = true) :
    Meets disk allowed (VFS.open path Flags.rdonly) (fun r w' => ∃ o w₁ view₁, Pictures disk t w₁ view₁ ∧
      match w.state.fdTable.insertFile ⟨0, Flags.rdonly, o, 0⟩ with
      | none => (∃ e, r = .error e) ∧ w' = w₁ ∧ Goes w w₁ []
      | some (fd, table) => r = .ok fd ∧ w' = withFiles w₁ table ∧ Goes w w₁ [o] ∧ Refers w₁ o ino) w := by
  unfold VFS.open
  rw [meets_bind, meets_get, pictured.mounted]
  simp only [Bool.not_true, Bool.false_eq_true, if_false, Flags.rdonly, Nat.zero_and, ne_eq, not_true_eq_false,
    false_and, and_false]
  unfold pathwalkStep12
  rw [meets_bind, meets_bind, meets_get]
  refine (pathwalkStep12With_arrives reliable wellFormed (expands_resolveSymlink reliable wellFormed maxDepth)
    (keeps_expand t maxDepth) pictured rooted refers isDir noNull).mono ?_
  rintro r w₁ arrives
  cases r with
  | error e =>
    have nowhere : t.resolve maxDepth at_ (routeOf path) true = none := arrives.1 true
    rw [led] at nowhere
    cases nowhere
  | ok path' =>
    obtain ⟨final, at_', ⟨⟨view₁, pictured₁⟩, refers₁, isDir₁, goes₁, -, noNull₁⟩, same⟩ := arrives
    have goal : some ino = reach t (t.expand maxDepth) true at_' path'.pathname := led.symm.trans (same true)
    dsimp only
    rw [meets_bind]
    refine (get_recounts pictured₁ refers₁.cached).mono ?_
    rintro _ w₂ ⟨recounts, goes₂, refers₂⟩
    have pictured₂ := recounts.pictures pictured₁
    rw [refers₁.ino] at refers₂
    have goes := goes₁.more goes₂
    rw [meets_bind]
    refine (pathwalkStep3_leads reliable wellFormed (expands_resolveSymlink reliable wellFormed maxDepth)
      (keeps_expand t maxDepth) final noNull₁ pictured₂ (goes.rooted rooted) refers₂ isDir₁ goes).mono ?_
    rintro r w₃ ⟨view₃, pictured₃, reached⟩
    rw [← goal] at reached
    obtain ⟨inTree, o, rfl, goes₃, refers₃⟩ := reached
    dsimp only
    rw [meets_bind]
    refine (put_goes pictured₃ (goes₃.perm (.swap _ _ _))).mono ?_
    rintro _ w₄ ⟨pictured₄, goes₄, -, still⟩
    have refers₄ := still o ino (.head _) refers₃
    obtain ⟨node, found⟩ := Option.isSome_iff_exists.mp inTree
    have mode := refers₄.isDir_eq pictured₄ found
    rw [dir] at mode
    unfold checkOpen
    rw [meets_bind, meets_bind, meets_inode (refers₄.live pictured₄), mode]
    simp only [Nat.zero_and, ne_eq, not_true_eq_false, if_false, Bool.not_true, Bool.and_false, Bool.false_eq_true,
      Flags.wronly, Flags.rdwr]
    rw [if_neg (by decide), meets_pure]
    dsimp only
    unfold openFile
    rw [meets_bind, meets_get, goes₄.fdTable]
    cases inserted : w.state.fdTable.insertFile ⟨0, 0, o, 0⟩ with
    | none =>
      dsimp only
      rw [meets_bind]
      refine (put_goes pictured₄ goes₄).mono ?_
      rintro _ w₅ ⟨pictured₅, goes₅, -⟩
      refine ⟨o, w₅, view₃, pictured₅, ?_⟩
      rw [inserted]
      exact ⟨⟨_, rfl⟩, rfl, goes₅⟩
    | some place =>
      refine ⟨o, w₄, view₃, pictured₄, ?_⟩
      rw [inserted]
      exact ⟨rfl, rfl, goes₄, refers₄⟩

end Stat

section Close

/-- A file is closed, and the reference of its descriptor is given back. -/
theorem close_goes {fd : Nat} {file : File} {table : FdTable} (pictured : Pictures disk t w view)
    (goes : GoesOn w'' w (file.inode :: held)) (removed : w.state.fdTable.removeFile fd = some (file, table)) :
    Meets disk allowed (close fd) (fun r w' => r = .ok () ∧ Pictures disk t w' view ∧ GoesOn w'' w' held ∧
      w'.state.fdTable = table) w := by
  unfold close
  rw [meets_bind, meets_get, if_neg (by omega), Int.toNat_natCast, removed]
  dsimp only
  rw [meets_bind, meets_modify, meets_bind]
  refine (put_recounts (w := withFiles w table) ((recounts_withFiles w table).pictures pictured)
    (Goes.withFiles goes table)).mono ?_
  rintro _ w₁ ⟨recounts, goes₁⟩
  exact ⟨rfl, recounts.pictures ((recounts_withFiles w table).pictures pictured), goes₁.on w₁.state.fdTable, goes₁.fdTable⟩

end Close

section Chdir

/-- The world with another working directory. -/
def withCwd (w : World Fs) (o : Nat) : World Fs := ⟨{ w.state with cwd := some o }, w.device⟩

theorem recounts_withCwd (w : World Fs) (o : Nat) : Recounts w (withCwd w o) :=
  ⟨⟨rfl, rfl, rfl, rfl, rfl, rfl, rfl⟩, rfl, rfl, fun _ => ⟨_, rfl⟩, rfl⟩

/-- The directory of the inode is the working directory, and what was in use besides the old one still is. -/
structure Moved (disk : Disk Errno) (t : SlotTree) (w w' : World Fs) (ino : Nat) : Prop where
  pictured : ∃ view, Pictures disk t w' view
  volume : w.state.SameVolume w'.state
  fdTable : w'.state.fdTable = w.state.fdTable
  kept : ∀ p ino, w.state.cwd ≠ some p → Refers w p ino → Refers w' p ino
  there : ∃ o, w'.state.cwd = some o ∧ Refers w' o ino

/-- The end of `chdir`: the new directory is set, and the reference of the path walk is given back. -/
theorem moves {w₀ : World Fs} (pictured : Pictures disk t w view) (refers : Refers w o ino) (twice : 2 ≤ w.state.refs o)
    (volume : w₀.state.SameVolume w.state) (fdTable : w.state.fdTable = w₀.state.fdTable)
    (kept : ∀ p ino, w₀.state.cwd ≠ some p → Refers w₀ p ino → Refers w p ino) : Meets disk allowed (do
      FsM.modify fun s => { s with cwd := some o }
      Pure.pure (.ok ())) (fun result w₁ => Meets disk allowed (do
        Inode.put o
        Pure.pure result) (fun (r : Except Errno Unit) w' => r = .ok () ∧ Moved disk t w₀ w' ino) w₁) w := by
  have same : (withCwd w o).state.refs o = w.state.refs o := rfl
  have pictured' := (recounts_withCwd w o).pictures pictured
  rw [meets_bind, meets_modify, meets_pure, meets_bind]
  refine (put_meets (w := withCwd w o) pictured' refers.cached (by omega)).mono ?_
  rintro _ _ rfl
  have recounts := recounts (withCwd w o) o ((withCwd w o).state.numInodeReferences - 1) ((withCwd w o).state.refs o - 1)
  have still : ∀ p ino, Refers w p ino → Refers (recounted (withCwd w o) o ((withCwd w o).state.numInodeReferences - 1)
      ((withCwd w o).state.refs o - 1)) p ino := by
    intro p ino refers'
    refine ⟨refers'.cached, (recounts.ino p).trans refers'.ino, ?_⟩
    rw [refs_recounted (w := withCwd w o) (pictured.settled.early o refers.cached)]
    split
    · omega
    · exact refers'.used
  have volume' := IsTrans.trans _ _ _ volume (recounts_withCwd w o).volume
  exact ⟨rfl, ⟨_, recounts.pictures pictured'⟩, IsTrans.trans _ _ _ volume' recounts.volume, fdTable,
    fun p ino other refers' => still p ino (kept p ino other refers'), o, rfl, still o ino refers⟩

/-- The working directory becomes what the path leads to, wherever it was. -/
theorem chdir_leads (reliable : Reliable disk) (wellFormed : t.WellFormed) (pictured : Pictures disk t w view)
    (rooted : Rooted t w) (refers : Refers w (w.state.cwd.getD w.state.rootInode) at_) (isDir : t.isDir at_ = true)
    (noNull : 0 ∉ path) : Meets disk allowed (chdir path) (fun r w' =>
      match t.resolve maxDepth at_ (routeOf path) true with
      | none => ∃ e, r = .error e
      | some ino => if t.isDir ino then r = .ok () ∧ Moved disk t w w' ino else ∃ e, r = .error e) w := by
  unfold chdir
  rw [meets_bind]
  refine (pathwalkStep123_leads reliable wellFormed pictured rooted refers isDir noNull true).mono ?_
  rintro r w₁ ⟨view₁, pictured₁, reached⟩
  cases led : t.resolve maxDepth at_ (routeOf path) true with
  | none =>
    rw [led] at reached
    obtain ⟨⟨e, rfl⟩, -⟩ := reached
    exact ⟨e, rfl⟩
  | some ino =>
    rw [led] at reached
    obtain ⟨inTree, o, rfl, goes, refers'⟩ := reached
    obtain ⟨node, found⟩ := Option.isSome_iff_exists.mp inTree
    dsimp only
    unfold chdirInode
    rw [meets_bind, meets_bind, meets_inode (refers'.live pictured₁), refers'.isDir_eq pictured₁ found]
    cases dir : t.isDir ino with
    | false =>
      simp only [Bool.not_false, if_true]
      rw [meets_pure, meets_bind]
      refine (put_goes pictured₁ goes).mono ?_
      rintro _ w₂ -
      exact ⟨_, rfl⟩
    | true =>
      simp only [Bool.not_true, Bool.false_eq_true, if_false, if_true]
      rw [meets_bind]
      refine (get_recounts pictured₁ refers'.cached).mono ?_
      rintro _ w₂ ⟨recounts, goes₂, refers₂⟩
      have pictured₂ := recounts.pictures pictured₁
      have both := goes.trans goes₂
      have refs := both.refs o
      rw [refers'.ino] at refers₂
      rw [meets_bind, meets_get, both.cwd]
      simp only [List.cons_append, List.nil_append, List.count_cons_self, List.count_nil] at refs
      cases cwd : w.state.cwd with
      | none => exact moves pictured₂ refers₂ (by omega) both.volume both.fdTable fun p ino _ => both.refers
      | some old =>
        rw [cwd, Option.getD_some] at refers
        dsimp only
        rw [meets_bind]
        obtain ⟨cached, -⟩ := both.used old refers.cached refers.used
        have used := both.refs old
        have inUse := refers.used
        refine (put_meets pictured₂ cached (by omega)).mono ?_
        rintro _ _ rfl
        have recounts' := VFS.recounts w₂ old (w₂.state.numInodeReferences - 1) (w₂.state.refs old - 1)
        have left : ∀ p, (recounted w₂ old (w₂.state.numInodeReferences - 1) (w₂.state.refs old - 1)).state.refs p =
            if p = old then w₂.state.refs old - 1 else w₂.state.refs p := refs_recounted (pictured₂.settled.early old cached)
        have enough : 2 ≤ (recounted w₂ old (w₂.state.numInodeReferences - 1) (w₂.state.refs old - 1)).state.refs o := by
          rw [left]
          split
          · rename_i here
            subst here
            omega
          · omega
        refine moves (recounts'.pictures pictured₂) ⟨refers₂.cached, (recounts'.ino o).trans refers₂.ino, by omega⟩ enough
          (IsTrans.trans _ _ _ both.volume recounts'.volume) both.fdTable fun p ino other refers' => ?_
        have refers'' := both.refers refers'
        have apart : p ≠ old := fun same => other (by rw [cwd, same])
        exact ⟨refers''.cached, (recounts'.ino p).trans refers''.ino, by rw [left, if_neg apart]; exact refers''.used⟩

end Chdir

end VFS
end MPStuBS
