import MPStuBS.FsState

/-! The rules of `ProgramLogic` for the steps that the file system is made of. -/
namespace MPStuBS.FsM

open Prog

variable {disk : Disk Errno} {allowed : FsFault → Prop} {w : World Fs}

@[simp] theorem meets_get {post : Fs → World Fs → Prop} :
    Meets disk allowed get post w ↔ post w.state w := Iff.rfl

@[simp] theorem meets_set {s : Fs} {post : Unit → World Fs → Prop} :
    Meets disk allowed (set s) post w ↔ post () { w with state := s } := Iff.rfl

@[simp] theorem meets_modify {f : Fs → Fs} {post : Unit → World Fs → Prop} :
    Meets disk allowed (modify f) post w ↔ post () { w with state := f w.state } := Iff.rfl

@[simp] theorem meets_fault {α : Type} {f : FsFault} {post : α → World Fs → Prop} :
    Meets disk allowed (fault f) post w ↔ allowed f := Iff.rfl

/-- The block is fixed, or fixing it fails and nothing but the clock moves. -/
theorem meets_fix {number : Nat} {post : Except Errno Nat → World Fs → Prop}
    (held : disk.fails w.device.clock number = none →
      post (.ok w.device.next) { w with device := (w.device.hold number).tick })
    (failed : ∀ e, disk.fails w.device.clock number = some e →
      post (.error e) { w with device := w.device.tick }) :
    Meets disk allowed (fix number) post w := by
  unfold Meets fix
  simp only [run]
  cases failure : disk.fails w.device.clock number with
  | none => exact held failure
  | some e => exact failed e failure

theorem meets_load {block : Nat} {bytes : Bytes} {post : Bytes → World Fs → Prop}
    (loaded : w.device.load disk block = some bytes) :
    Meets disk allowed (load block) post w ↔ post bytes w := by
  unfold Meets load
  simp only [run, loaded]

/-- Reading a block that is not held is a fault. -/
theorem after_load {block : Nat} {post : Bytes → World Fs → Prop}
    (loaded : ∀ bytes, w.device.load disk block = some bytes → post bytes w) :
    After disk (load block) post w := by
  cases found : w.device.load disk block with
  | none =>
    unfold After Meets load
    simp only [run, found]
  | some bytes => exact (meets_load found).mpr (loaded bytes found)

@[simp] theorem meets_store {block : Nat} {bytes : Bytes} {post : Unit → World Fs → Prop} :
    Meets disk allowed (store block bytes) post w ↔
      post () { w with device := w.device.exec disk block (.store bytes) } := Iff.rfl

@[simp] theorem meets_markDirty {block : Nat} {post : Unit → World Fs → Prop} :
    Meets disk allowed (markDirty block) post w ↔
      post () { w with device := w.device.exec disk block .markDirty } := Iff.rfl

@[simp] theorem meets_unfix {block : Nat} {post : Unit → World Fs → Prop} :
    Meets disk allowed (unfix block) post w ↔
      post () { w with device := w.device.exec disk block .unfix } := Iff.rfl

@[simp] theorem meets_forget {block : Nat} {post : Unit → World Fs → Prop} :
    Meets disk allowed (forget block) post w ↔
      post () { w with device := (w.device.exec disk block .clearDirty).exec disk block .unfix } := Iff.rfl

@[simp] theorem meets_sync {block : Nat} {post : Unit → World Fs → Prop} :
    Meets disk allowed (sync block) post w ↔
      post () { w with device := w.device.exec disk block .sync } := Iff.rfl

theorem meets_inode {ptr : Nat} {post : Inode → World Fs → Prop}
    (live : (w.state.inodes ptr).deleted = false) :
    Meets disk allowed (inode ptr) post w ↔ post (w.state.inodes ptr) w := by
  unfold inode
  simp only [meets_bind, meets_get, live, Bool.false_eq_true, if_false, meets_pure]

theorem after_inode {ptr : Nat} {post : Inode → World Fs → Prop} (holds : post (w.state.inodes ptr) w) :
    After disk (inode ptr) post w := by
  unfold inode
  simp only [meets_bind, meets_get]
  split
  · exact meets_fault.mpr trivial
  · exact holds

theorem meets_setInode {ptr : Nat} {f : Inode → Inode} {post : Unit → World Fs → Prop}
    (live : (w.state.inodes ptr).deleted = false) :
    Meets disk allowed (setInode ptr f) post w ↔
      post () { w with state := w.state.setInode ptr f } := by
  unfold setInode
  simp only [meets_bind, meets_get, live, Bool.false_eq_true, if_false, meets_set]

end MPStuBS.FsM
