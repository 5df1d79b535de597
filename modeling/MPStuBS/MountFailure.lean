import MPStuBS.CacheIntegrity
import MPStuBS.FsLogic

/-! The mount of an image from its superblock on, and what is left of it when it fails. -/
namespace MPStuBS

open Prog FsM

namespace Device

variable {ε : Type} {disk : Disk ε} {d d' : Device} {hs : List Nat}

/-- Since the device `d` only these blocks have been fixed and not been released, and nothing
has been changed. -/
structure Leaves (d d' : Device) (hs : List Nat) : Prop where
  same : d.Extends d'
  late : ∀ h ∈ hs, d.next ≤ h
  clean : ∀ h ∈ hs, (d'.blocks h).dirty = false
  held : ∀ b, d.next ≤ b → b < d'.next → (d'.blocks b).present = true → b ∈ hs

theorem Leaves.refl (d : Device) : d.Leaves d [] :=
  ⟨.refl d, by simp, by simp, fun b late early => absurd early (Nat.not_lt.mpr late)⟩

theorem Leaves.tick (leaves : d.Leaves d' hs) : d.Leaves d'.tick hs :=
  ⟨leaves.same.tick, leaves.late, leaves.clean, leaves.held⟩

theorem Leaves.hold (leaves : d.Leaves d' hs) (early : ∀ h ∈ hs, h < d'.next) (number : Nat) :
    d.Leaves (d'.hold number).tick (d'.next :: hs) := by
  have grown := extends_hold d' number
  refine ⟨leaves.same.trans grown, fun h member => ?_, fun h member => ?_, fun b late inside present => ?_⟩
  · rcases List.mem_cons.mp member with rfl | old
    · exact leaves.same.next
    · exact leaves.late h old
  · rcases List.mem_cons.mp member with rfl | old
    · rw [blocks_hold]
    · rw [grown.blocks h (early h old)]
      exact leaves.clean h old
  · by_cases new : b = d'.next
    · exact new ▸ .head _
    · have inside : b < d'.next + 1 := inside
      have old : b < d'.next := by omega
      rw [grown.blocks b old] at present
      exact .tail _ (leaves.held b late old present)

theorem Leaves.unfix {h : Nat} (leaves : d.Leaves d' (h :: hs)) :
    d.Leaves (d'.exec disk h .unfix) hs := by
  have clean := leaves.clean h (.head _)
  have kept : d'.sync disk h = d' := by simp [Device.sync, clean]
  have eq : d'.exec disk h .unfix = d'.setBlock h { d'.blocks h with present := false } := by
    simp only [exec, kept]
  refine ⟨leaves.same.unfix (leaves.late h (.head _)) clean, fun b member => leaves.late b (.tail _ member),
    fun b member => ?_, fun b late early present => ?_⟩
  · rw [eq]
    by_cases here : b = h
    · subst here
      simp [clean]
    · rw [setBlock_of_ne _ here]
      exact leaves.clean b (.tail _ member)
  · rw [eq] at early present
    have other : b ≠ h := by
      rintro rfl
      simp at present
    rw [setBlock_of_ne _ other] at present
    rcases List.mem_cons.mp (leaves.held b late early present) with here | old
    · exact absurd here other
    · exact old

theorem Leaves.perm {hs' : List Nat} (leaves : d.Leaves d' hs) (same : ∀ h, h ∈ hs ↔ h ∈ hs') :
    d.Leaves d' hs' :=
  ⟨leaves.same, fun h member => leaves.late h ((same h).mpr member),
    fun h member => leaves.clean h ((same h).mpr member),
    fun b late early present => (same b).mp (leaves.held b late early present)⟩

theorem Leaves.store (disk : Disk ε) {h : Nat} (leaves : d.Leaves d' hs) (member : h ∈ hs) (bytes : Bytes) :
    Leaves { d with contents := (d'.exec disk h (.store bytes)).contents }
      (d'.exec disk h (.store bytes)) hs := by
  have late := leaves.late h member
  have kept : ∀ b, ((d'.exec disk h (.store bytes)).blocks b).dirty = (d'.blocks b).dirty ∧
      ((d'.exec disk h (.store bytes)).blocks b).present = (d'.blocks b).present ∧
      (b ≠ h → (d'.exec disk h (.store bytes)).blocks b = d'.blocks b) := by
    intro b
    simp only [exec]
    split
    · by_cases here : b = h
      · subst here
        simp
      · simp [setBlock_of_ne _ here]
    · exact ⟨rfl, rfl, fun _ => rfl⟩
  have next : (d'.exec disk h (.store bytes)).next = d'.next := by
    simp only [exec]
    split <;> rfl
  refine ⟨⟨rfl, next ▸ leaves.same.next, fun b early => ?_⟩, leaves.late, fun b held => ?_,
    fun b after inside present => ?_⟩
  · rw [(kept b).2.2 (by have early : b < d.next := early; omega)]
    exact leaves.same.blocks b early
  · rw [(kept b).1]
    exact leaves.clean b held
  · rw [(kept b).2.1] at present
    exact leaves.held b after (next ▸ inside) present

/-- What is on the device after a held block was changed, which is lent or a copy. -/
theorem contents_store (disk : Disk ε) (d : Device) (h : Nat) (bytes : Bytes) :
    (d.exec disk h (.store bytes)).contents = d.contents ∨
      disk.copies = false ∧ (d.exec disk h (.store bytes)).contents =
        Function.update d.contents (d.blocks h).number bytes := by
  simp only [exec]
  split
  · exact .inl rfl
  · rename_i lends
    exact .inr ⟨Bool.eq_false_iff.mpr lends, rfl⟩

theorem load_lent {h : Nat} {bytes : Bytes} (lends : disk.copies = false)
    (loaded : d.load disk h = some bytes) : bytes = d.contents (d.blocks h).number := by
  simp only [Device.load, lends, Bool.false_eq_true, if_false] at loaded
  split at loaded
  · exact (Option.some.inj loaded).symm
  · cases loaded

end Device

/-- The superblock on the device. -/
def Device.super (d : Device) (bits : Nat) : SuperBlock :=
  Minix.readSuper (Minix.superBytes bits (d.contents (Minix.superBlockNo bits)))

/-- Only values have changed that the next mount sets anew. -/
def Overwritten (s s' : Fs) : Prop := ∃ super superBlock bits imap zmap n, s' = { s with
  super := super, superBlock := superBlock, blocksizeBits := bits, imap := imap, zmap := zmap,
  numInodeReferences := n }

/-- The blocks are as before, but for the first bits of the two bitmaps, which every mount sets. -/
def Marked (super : SuperBlock) (contents contents' : Nat → Bytes) : Prop := ∀ n,
  contents' n = contents n ∨
    (n = 2 ∨ n = 2 + super.imapBlocks) ∧ contents' n = (contents n).setBit 0

/-- Nothing is left of the attempt but what the next mount sets anew: no reference to an inode, no
block that is fixed, no other change of the image. -/
structure NoTrace (bits : Nat) (w w' : World Fs) : Prop where
  unmounted : w'.state.mounted = false
  state : Overwritten w.state w'.state
  contents : Marked (w.device.super bits) w.device.contents w'.device.contents
  handles : ∀ b < w.device.next, w'.device.blocks b = w.device.blocks b
  released : ∀ b, w.device.next ≤ b → b < w'.device.next → (w'.device.blocks b).present = false

namespace Minix

variable {disk : Disk Errno} {allowed : FsFault → Prop} {d : Device} {hs : List Nat}

/-- The handles of the first `n` bitmap blocks. -/
def mapHandles (map : Nat → Nat) (i n : Nat) : List Nat := (List.range' i n).map map

theorem unfixMaps_leaves (map : Nat → Nat) (n : Nat) : ∀ {w : World Fs} {i : Nat},
    d.Leaves w.device (mapHandles map i n ++ hs) →
    Meets disk allowed (unfixMaps map n i) (fun _ w' => w'.state = w.state ∧ d.Leaves w'.device hs) w := by
  induction n with
  | zero => exact fun leaves => ⟨rfl, leaves⟩
  | succ n ih =>
    intro w i leaves
    simp only [unfixMaps, meets_bind, meets_unfix]
    exact ih (w := ⟨w.state, w.device.exec disk (map i) .unfix⟩) leaves.unfix

theorem mapHandles_update (map : Nat → Nat) (i h : Nat) :
    mapHandles (Function.update map i h) 0 (i + 1) = mapHandles map 0 i ++ [h] := by
  unfold mapHandles
  rw [List.range'_1_concat, List.map_append, Nat.zero_add]
  congr 1
  · refine List.map_congr_left fun j member => Function.update_of_ne ?_ _ _
    have less := (List.mem_range'_1.mp member).2
    omega
  · simp

theorem fixMaps_leaves (blockno n : Nat) : ∀ {w : World Fs} {i : Nat} {map : Nat → Nat},
    d.Leaves w.device (mapHandles map 0 i ++ hs) → (∀ h ∈ mapHandles map 0 i ++ hs, h < w.device.next) →
    Meets disk allowed (fixMaps blockno n i map) (fun r w' => w'.state = w.state ∧
      d.Leaves w'.device (mapHandles r.2.2 0 r.2.1 ++ hs) ∧
      (∀ h ∈ mapHandles r.2.2 0 r.2.1 ++ hs, h < w'.device.next) ∧
      (r.1 = none → r.2.1 = i + n ∧ w'.device.clock = w.device.clock + n ∧
        ∀ j < n, disk.fails (w.device.clock + j) (blockno + i + j) = none) ∧
      (∀ e, r.1 = some e → ∃ j < n, disk.fails (w.device.clock + j) (blockno + i + j) = some e)) w := by
  induction n with
  | zero =>
    intro w i map leaves early
    exact ⟨rfl, leaves, early, fun _ => ⟨rfl, rfl, by simp⟩, by simp⟩
  | succ n ih =>
    intro w i map leaves early
    simp only [fixMaps, meets_bind]
    refine meets_fix (fun success => ?_) (fun e failure => ?_)
    · have split := mapHandles_update map i w.device.next
      have same : ∀ h, h ∈ w.device.next :: (mapHandles map 0 i ++ hs) ↔
          h ∈ mapHandles (Function.update map i w.device.next) 0 (i + 1) ++ hs := by
        intro h
        rw [split]
        simp only [List.mem_cons, List.mem_append, List.not_mem_nil, or_false]
        tauto
      have held := (leaves.hold early (blockno + i)).perm same
      refine (ih (w := ⟨w.state, (w.device.hold (blockno + i)).tick⟩) held fun h member => ?_).mono ?_
      · have bound : ∀ h ∈ w.device.next :: (mapHandles map 0 i ++ hs), h < w.device.next + 1 := by
          intro h member
          rcases List.mem_cons.mp member with rfl | old
          · exact Nat.lt_succ_self _
          · exact Nat.lt_succ_of_lt (early h old)
        exact bound h ((same h).mpr member)
      · rintro ⟨failed, k, map'⟩ w' ⟨state, leaves', early', passed, stopped⟩
        have clock : ∀ j, w.device.clock + 1 + j = w.device.clock + (j + 1) := fun j => by omega
        have number : ∀ j, blockno + (i + 1) + j = blockno + i + (j + 1) := fun j => by omega
        refine ⟨state, leaves', early', fun none => ?_, fun e some => ?_⟩
        · obtain ⟨all, ticks, fine⟩ := passed none
          refine ⟨by omega, ?_, fun j less => ?_⟩
          · have ticks : w'.device.clock = w.device.clock + 1 + n := ticks
            omega
          · cases j with
            | zero => exact success
            | succ j =>
              have here := fine j (by omega)
              rw [number] at here
              exact clock j ▸ here
        · obtain ⟨j, less, fails⟩ := stopped e some
          rw [number] at fails
          exact ⟨j + 1, by omega, clock j ▸ fails⟩
    · exact ⟨rfl, leaves.tick, early, by simp, fun e' eq => ⟨0, by omega, (Option.some.inj eq) ▸ failure⟩⟩

/-- The whole loop: it stops at the first block that fails. -/
theorem map_fixed (blockno n : Nat) {w : World Fs} (leaves : d.Leaves w.device hs)
    (early : ∀ h ∈ hs, h < w.device.next) :
    Meets disk allowed (fixMaps blockno n 0 fun _ => 0) (fun r w' => w'.state = w.state ∧
      d.Leaves w'.device (mapHandles r.2.2 0 r.2.1 ++ hs) ∧
      (∀ h ∈ mapHandles r.2.2 0 r.2.1 ++ hs, h < w'.device.next) ∧
      (r.1 = none → r.2.1 = n ∧ w'.device.clock = w.device.clock + n ∧
        ∀ j < n, disk.fails (w.device.clock + j) (blockno + j) = none) ∧
      (∀ e, r.1 = some e → ∃ j < n, disk.fails (w.device.clock + j) (blockno + j) ≠ none)) w := by
  refine (fixMaps_leaves (i := 0) blockno n leaves early).mono ?_
  rintro r w' ⟨state, leaves', early', passed, stopped⟩
  refine ⟨state, leaves', early', fun none => ?_, fun e some => ?_⟩
  · obtain ⟨all, ticks, fine⟩ := passed none
    exact ⟨all.trans (Nat.zero_add n), ticks, fine⟩
  · obtain ⟨j, less, fails⟩ := stopped e some
    exact ⟨j, less, by simp [show blockno + j = blockno + 0 + j from rfl, fails]⟩

/-- The handles of the blocks from `blockno` on are the ones of these blocks. -/
theorem fixMaps_numbers (blockno n : Nat) : ∀ {w : World Fs} {i : Nat} {map : Nat → Nat},
    (∀ j < i, map j < w.device.next ∧ (w.device.blocks (map j)).number = blockno + j) →
    Meets disk allowed (fixMaps blockno n i map) (fun r w' =>
      (∀ b < w.device.next, w'.device.blocks b = w.device.blocks b) ∧ w.device.next ≤ w'.device.next ∧
        (r.1 = none → ∀ j < i + n, (w'.device.blocks (r.2.2 j)).number = blockno + j)) w := by
  induction n with
  | zero => exact fun numbers => ⟨fun _ _ => rfl, Nat.le_refl _, fun _ j less => (numbers j less).2⟩
  | succ n ih =>
    intro w i map numbers
    simp only [fixMaps, meets_bind]
    refine meets_fix (fun _ => ?_) (fun e _ => ⟨fun _ _ => rfl, Nat.le_refl _, by simp⟩)
    have grown := w.device.extends_hold (blockno + i)
    have held : ∀ j < i + 1, Function.update map i w.device.next j < (w.device.hold (blockno + i)).tick.next ∧
        ((w.device.hold (blockno + i)).tick.blocks (Function.update map i w.device.next j)).number =
          blockno + j := by
      intro j less
      by_cases here : j = i
      · subst here
        rw [Function.update_self, Device.blocks_hold]
        exact ⟨Nat.lt_succ_self _, rfl⟩
      · obtain ⟨early, number⟩ := numbers j (by omega)
        rw [Function.update_of_ne here, grown.blocks _ early]
        exact ⟨Nat.lt_succ_of_lt early, number⟩
    refine (ih (w := ⟨w.state, (w.device.hold (blockno + i)).tick⟩) held).mono ?_
    rintro r w' ⟨kept, next, all⟩
    refine ⟨fun b early => ?_, Nat.le_trans grown.next next, fun none j less => all none j (by omega)⟩
    exact (kept b (Nat.lt_succ_of_lt early)).trans (grown.blocks b early)

/-- There is no memory for the table of bitmap blocks, a bitmap has no blocks, or one of their blocks
cannot be fixed. -/
def MapsFail (disk : Disk Errno) (clock : Nat) (memory : Allocations) (super : SuperBlock) : Prop :=
  super.imapBlocks = 0 ∨ super.zmapBlocks = 0 ∨ memory.map = false ∨
    ∃ i < super.imapBlocks + super.zmapBlocks, disk.fails (clock + i) (2 + i) ≠ none

/-- The mount fails on the superblock or on a bitmap, before it asks for the root inode. -/
def FailsBeforeRoot (disk : Disk Errno) (bits : Nat) (memory : Allocations) (d : Device) : Prop :=
  memory.filesystem = false ∨ disk.fails d.clock (superBlockNo bits) ≠ none ∨
    (superBytes bits (d.contents (superBlockNo bits))).u16 24 ≠ minix3SuperMagic ∨
    blocksizeBits ((superBytes bits (d.contents (superBlockNo bits))).u16 28) ≠ some bits ∨
    MapsFail disk (d.clock + 1) memory (d.super bits)

/-- What is in the cache after the root inode was asked for. -/
theorem getInode_caches (ino : Nat) (s : Fs) :
    (InodeCache.getInode ino).Always (fun _ s' => s'.icache ≠ []) s := by
  simp only [InodeCache.getInode, always_bind]
  refine (always_true InodeCache.maybeEvictInodes s).mono fun _ s₁ _ => ?_
  refine (InodeCache.find_always ino s₁.icache s₁).mono ?_
  rintro found s₂ ⟨rfl, member, _⟩
  cases found with
  | some cur =>
    simp only [always_bind]
    refine (InodeCache.sameCache_get cur s₂).mono fun _ s₃ same => ?_
    rw [always_pure, same.icache]
    exact List.ne_nil_of_mem (member cur rfl)
  | none =>
    simp only [allocateInode, InodeCache.insertInode, always_bind]
    refine always_inode fun _ => (InodeCache.contains_always _ _ _).mono ?_
    rintro found s' ⟨rfl, member, _⟩
    cases found with
    | true =>
      obtain ⟨o, inCache, _⟩ := member rfl
      exact List.ne_nil_of_mem inCache
    | false => exact List.append_ne_nil_of_right_ne_nil _ (List.cons_ne_nil _ _)

theorem iget_caches (ino : Nat) (s : Fs) : (iget ino).Always (fun _ s' => s'.icache ≠ []) s := by
  simp only [iget, always_bind]
  refine (getInode_caches ino s).mono fun o s₁ cached => always_inode fun _ => ?_
  split
  · exact cached
  simp only [always_bind]
  refine (rawInode_always ino s₁).mono ?_
  rintro r s₂ ⟨rfl, _⟩
  cases r with
  | error e =>
    simp only [always_bind]
    refine (quietBut_destroy o s₂).mono fun _ s₃ quiet => ?_
    change s₃.icache ≠ []
    rwa [quiet.icache]
  | ok found =>
    obtain ⟨block, raw⟩ := found
    simp only [always_bind]
    refine ((Quiet.load : Quiet (load block)) s₂).mono fun bytes s₃ loaded => always_setInode fun _ => ?_
    refine always_setInode fun _ => (quiet_inodeMarked ino _).mono fun marked s₄ seen => ?_
    change s₄.icache ≠ []
    rw [seen.sameCache.icache]
    change s₃.icache ≠ []
    rwa [loaded.sameCache.icache]

theorem mountRoot_caches (bits superBlock : Nat) (imap zmap : Nat → Nat) (s : Fs) :
    (mountRoot bits superBlock true imap zmap).Always (fun _ s' => s'.icache ≠ []) s := by
  simp only [mountRoot, igetRoot, if_true, always_bind]
  refine (always_true _ s).mono fun imapBits s₀ _ => (always_true _ s₀).mono fun _ s₀ _ => ?_
  refine (always_true _ s₀).mono fun zmapBits s₀ _ => (always_true _ s₀).mono fun _ s₀ _ => ?_
  refine (always_true _ s₀).mono fun _ s₀ _ => (iget_caches rootIno s₀).mono fun r s₁ cached => ?_
  cases r with
  | error e =>
    simp only [always_bind]
    refine (quiet_minixUmount s₁).mono fun _ s₂ quiet => ?_
    rwa [always_pure, quiet.sameCache.icache]
  | ok root =>
    simp only [always_bind]
    refine always_inode fun _ => ?_
    split
    · exact cached
    · simp only [always_bind]
      refine (sameCache_put root s₁).mono fun _ s₂ same => (quiet_minixUmount s₂).mono fun _ s₃ quiet => ?_
      rwa [always_pure, quiet.sameCache.icache, same.icache]

/-- What is left, besides the blocks that are still fixed. -/
def Left (super : SuperBlock) (d : Device) (hs : List Nat) (s : Fs) (w' : World Fs) : Prop :=
  Overwritten s w'.state ∧ ∃ contents, Marked super d.contents contents ∧
    Device.Leaves { d with contents := contents } w'.device hs

theorem Left.of_leaves {super : SuperBlock} {s : Fs} {w' : World Fs} (state : Overwritten s w'.state)
    (leaves : d.Leaves w'.device hs) : Left super d hs s w' :=
  ⟨state, d.contents, fun _ => .inl rfl, leaves⟩

section Mount

variable {w : World Fs}

theorem umount_leaves (leaves : d.Leaves w.device (mapHandles w.state.zmap 0 w.state.super.zmapBlocks ++
      (mapHandles w.state.imap 0 w.state.super.imapBlocks ++ w.state.superBlock :: hs))) :
    Meets disk allowed umount (fun _ w' => w'.state = w.state ∧ d.Leaves w'.device hs) w := by
  have order : ∀ h, h ∈ mapHandles w.state.zmap 0 w.state.super.zmapBlocks ++
      (mapHandles w.state.imap 0 w.state.super.imapBlocks ++ w.state.superBlock :: hs) ↔
      h ∈ mapHandles w.state.imap 0 w.state.super.imapBlocks ++
        (mapHandles w.state.zmap 0 w.state.super.zmapBlocks ++ w.state.superBlock :: hs) := by
    intro h
    simp only [List.mem_append]
    tauto
  simp only [umount, meets_bind, meets_get]
  refine (unfixMaps_leaves _ _ (leaves.perm order)).mono ?_
  rintro _ w₁ ⟨state, leaves⟩
  refine meets_bind.mpr ((unfixMaps_leaves _ _ leaves).mono ?_)
  rintro _ w₂ ⟨state₂, leaves⟩
  exact meets_unfix.mpr ⟨state₂.trans state, leaves.unfix⟩

/-- The first bits of both bitmaps are set, in memory that is lent or in copies. -/
theorem marks_contents {super : SuperBlock} {first second : Nat} {bitmap bitmap' : Bytes}
    (counts : super.imapBlocks ≠ 0) (same : w.device.contents = d.contents)
    (loaded : w.device.load disk first = some bitmap)
    (loaded' : (w.device.exec disk first (.store (bitmap.setBit 0))).load disk second = some bitmap')
    (number : (w.device.blocks first).number = 2)
    (number' : ((w.device.exec disk first (.store (bitmap.setBit 0))).blocks second).number =
      2 + super.imapBlocks) :
    Marked super d.contents ((w.device.exec disk first (.store (bitmap.setBit 0))).exec disk second
      (.store (bitmap'.setBit 0))).contents := by
  intro n
  rcases Device.contents_store disk (w.device.exec disk first (.store (bitmap.setBit 0))) second
    (bitmap'.setBit 0) with kept | ⟨lends, changed⟩
  · rw [kept]
    rcases Device.contents_store disk w.device first (bitmap.setBit 0) with kept | ⟨lends, changed⟩
    · exact .inl (congrFun (kept.trans same) n)
    · rw [changed, number, Device.load_lent lends loaded, number, same]
      by_cases here : n = 2
      · subst here
        exact .inr ⟨.inl rfl, Function.update_self ..⟩
      · exact .inl (Function.update_of_ne here ..)
  · have before : (w.device.exec disk first (.store (bitmap.setBit 0))).contents =
        Function.update d.contents 2 ((d.contents 2).setBit 0) := by
      rcases Device.contents_store disk w.device first (bitmap.setBit 0) with kept | ⟨_, changed⟩
      · have stored : (w.device.exec disk first (.store (bitmap.setBit 0))).contents =
            Function.update w.device.contents (w.device.blocks first).number (bitmap.setBit 0) := by
          simp [Device.exec, lends, Device.setContents]
        rw [stored, number, Device.load_lent lends loaded, number, same]
      · rw [changed, number, Device.load_lent lends loaded, number, same]
    have other : 2 + super.imapBlocks ≠ 2 := by omega
    rw [changed, number', Device.load_lent lends loaded', number', before, Function.update_of_ne other]
    by_cases here : n = 2 + super.imapBlocks
    · subst here
      exact .inr ⟨.inr rfl, Function.update_self ..⟩
    · rw [Function.update_of_ne here]
      by_cases first : n = 2
      · subst first
        exact .inr ⟨.inl rfl, Function.update_self ..⟩
      · exact .inl (Function.update_of_ne first ..)

theorem maybeEvictInodes_empty {post : Unit → World Fs → Prop} (empty : w.state.icache = [])
    (holds : post () w) : Meets disk allowed InodeCache.maybeEvictInodes post w := by
  simpa only [InodeCache.maybeEvictInodes, meets_bind, meets_get, empty, InodeCache.evictLoop, meets_pure]

/-- Without memory for the root inode, nothing is left of the mount. -/
theorem mountRoot_starved {bits superBlock : Nat} (empty : w.state.icache = [])
    (isSuperBlock : w.state.superBlock = superBlock)
    (counts : w.state.super.imapBlocks ≠ 0 ∧ w.state.super.zmapBlocks ≠ 0)
    (leaves : d.Leaves w.device (mapHandles w.state.zmap 0 w.state.super.zmapBlocks ++
      (mapHandles w.state.imap 0 w.state.super.imapBlocks ++ superBlock :: hs)))
    (number : (w.device.blocks (w.state.imap 0)).number = 2)
    (number' : (w.device.blocks (w.state.zmap 0)).number = 2 + w.state.super.imapBlocks) :
    After disk (mountRoot bits superBlock false w.state.imap w.state.zmap) (fun r w' =>
      (∃ e, r = .error e) ∧ Left w.state.super d hs w.state w') w := by
  subst isSuperBlock
  have first : w.state.imap 0 ∈ mapHandles w.state.zmap 0 w.state.super.zmapBlocks ++
      (mapHandles w.state.imap 0 w.state.super.imapBlocks ++ w.state.superBlock :: hs) := by
    simp only [mapHandles, List.mem_append, List.mem_map, List.mem_range'_1]
    exact .inr (.inl ⟨0, by omega, rfl⟩)
  have second : w.state.zmap 0 ∈ mapHandles w.state.zmap 0 w.state.super.zmapBlocks ++
      (mapHandles w.state.imap 0 w.state.super.imapBlocks ++ w.state.superBlock :: hs) := by
    simp only [mapHandles, List.mem_append, List.mem_map, List.mem_range'_1]
    exact .inl ⟨0, by omega, rfl⟩
  simp only [mountRoot, rereadSuper, igetRoot, Bool.false_eq_true, if_false, meets_bind]
  refine after_load fun bitmap loaded => meets_bind.mpr (meets_store.mpr ?_)
  simp only [meets_bind]
  refine after_load fun bitmap' loaded' => meets_bind.mpr (meets_store.mpr ?_)
  simp only [meets_bind]
  refine after_load fun bytes _ => meets_modify.mpr ?_
  have numbers : ((w.device.exec disk (w.state.imap 0) (.store (bitmap.setBit 0))).blocks
      (w.state.zmap 0)).number = 2 + w.state.super.imapBlocks := by
    rw [← number']
    simp only [Device.exec]
    split
    · by_cases here : w.state.zmap 0 = w.state.imap 0
      · rw [here, Device.setBlock_self]
      · rw [Device.setBlock_of_ne _ here]
    · rfl
  have marked := marks_contents counts.1 leaves.same.contents loaded loaded' number numbers
  have stored := (leaves.store disk first (bitmap.setBit 0)).store disk second
    (bitmap'.setBit 0)
  simp only [meets_bind]
  refine maybeEvictInodes_empty empty ?_
  rw [meets_pure, meets_bind]
  refine (umount_leaves stored).mono ?_
  rintro _ w' ⟨state, leaves'⟩
  exact ⟨⟨_, rfl⟩, ⟨_, _, _, _, _, _, state⟩, _, marked, leaves'⟩

theorem not_mapsFail {clock : Nat} {memory : Allocations} {super : SuperBlock}
    (counts : ¬ (super.imapBlocks = 0 ∨ super.zmapBlocks = 0)) (map : memory.map = true)
    (imap : ∀ j < super.imapBlocks, disk.fails (clock + j) (2 + j) = none)
    (zmap : ∀ j < super.zmapBlocks, disk.fails (clock + super.imapBlocks + j) (2 + super.imapBlocks + j) = none) :
    ¬ MapsFail disk clock memory super := by
  rintro (no | no | no | ⟨i, inside, fails⟩)
  · exact counts (.inl no)
  · exact counts (.inr no)
  · exact absurd (map.symm.trans no) (by decide)
  · by_cases first : i < super.imapBlocks
    · exact fails (imap i first)
    · have here := zmap (i - super.imapBlocks) (by omega)
      rw [Nat.add_assoc, Nat.add_assoc, Nat.add_sub_cancel' (Nat.not_lt.mp first)] at here
      exact fails here

/-- Either the mount fails and nothing is left, or an inode has come into the cache. -/
theorem mountMaps_after {bits superBlock : Nat} (memory : Allocations) (super : SuperBlock)
    (leaves : d.Leaves w.device (superBlock :: hs)) (early : ∀ h ∈ superBlock :: hs, h < w.device.next) :
    After disk (mountMaps bits superBlock memory super) (fun r w' =>
      (MapsFail disk w.device.clock memory super ∨ w.state.icache = [] ∧ memory.root = false) ∧
        (∃ e, r = .error e) ∧ Left super d hs w.state w' ∨
      ¬ MapsFail disk w.device.clock memory super ∧
        (memory.root = true ∧ w'.state.icache ≠ [] ∨ w.state.icache ≠ [])) w := by
  unfold mountMaps
  simp only [meets_bind, meets_modify]
  split
  · rename_i none
    refine meets_bind.mpr (meets_unfix.mpr (.inl ⟨.inl ?_, ⟨_, rfl⟩, .of_leaves ⟨_, _, _, _, _, _, rfl⟩
      leaves.unfix⟩))
    exact none.elim .inl fun none => .inr (.inl none)
  rename_i counts
  split
  · rename_i starved
    refine meets_bind.mpr (meets_unfix.mpr (.inl ⟨.inl (.inr (.inr (.inl ?_))), ⟨_, rfl⟩,
      .of_leaves ⟨_, _, _, _, _, _, rfl⟩ leaves.unfix⟩))
    simpa using starved
  rename_i memoryMap
  simp only [meets_bind]
  refine ((map_fixed (w := ⟨{ w.state with
    super := super, superBlock := superBlock, blocksizeBits := bits, numInodeReferences := 0 },
    w.device⟩) 2 super.imapBlocks leaves early).and (fixMaps_numbers 2 super.imapBlocks (by simp))).mono ?_
  rintro ⟨failure, n, imap⟩ w₁ ⟨⟨state, leaves₁, early₁, passed, stopped⟩, _, _, numbers⟩
  cases failure with
  | some e =>
    simp only [meets_bind]
    refine (unfixMaps_leaves imap n leaves₁).mono ?_
    rintro _ w₂ ⟨state₂, leaves₂⟩
    obtain ⟨j, less, fails⟩ := stopped e rfl
    refine meets_bind.mpr (meets_unfix.mpr (.inl ⟨.inl (.inr (.inr (.inr ⟨j, by omega, fails⟩))),
      ⟨_, rfl⟩, .of_leaves ?_ leaves₂.unfix⟩))
    exact ⟨_, _, _, _, _, _, state₂.trans state⟩
  | none =>
    obtain ⟨all, ticks, fine⟩ := passed rfl
    have all : n = super.imapBlocks := all
    have ticks : w₁.device.clock = w.device.clock + super.imapBlocks := ticks
    subst all
    simp only [meets_bind]
    refine ((map_fixed (2 + super.imapBlocks) super.zmapBlocks leaves₁ early₁).and
      (fixMaps_numbers (2 + super.imapBlocks) super.zmapBlocks (by simp))).mono ?_
    rintro ⟨failure, n, zmap⟩ w₂ ⟨⟨state₂, leaves₂, early₂, passed₂, stopped₂⟩, kept, _, numbers₂⟩
    rw [ticks] at passed₂ stopped₂
    simp only [meets_bind, meets_modify]
    have state : w₂.state = _ := state₂.trans state
    cases failure with
    | some e =>
      have order : ∀ h, h ∈ mapHandles zmap 0 n ++ (mapHandles imap 0 super.imapBlocks ++ superBlock :: hs) ↔
          h ∈ mapHandles imap 0 super.imapBlocks ++ (mapHandles zmap 0 n ++ superBlock :: hs) := by
        intro h
        simp only [List.mem_append]
        tauto
      simp only [meets_bind]
      refine (unfixMaps_leaves (w := ⟨{ w₂.state with imap := imap, zmap := zmap }, w₂.device⟩) imap
        super.imapBlocks (leaves₂.perm order)).mono ?_
      rintro _ w₃ ⟨state₃, leaves₃⟩
      simp only [meets_bind]
      refine (unfixMaps_leaves zmap n leaves₃).mono ?_
      rintro _ w₄ ⟨state₄, leaves₄⟩
      obtain ⟨j, less, fails⟩ := stopped₂ e rfl
      refine meets_bind.mpr (meets_unfix.mpr (.inl ⟨.inl (.inr (.inr (.inr ⟨super.imapBlocks + j,
        by omega, ?_⟩))), ⟨_, rfl⟩, .of_leaves ?_ leaves₄.unfix⟩))
      · rwa [← Nat.add_assoc, ← Nat.add_assoc]
      · change Overwritten w.state w₄.state
        rw [state₄, state₃, state]
        exact ⟨_, _, _, _, _, _, rfl⟩
    | none =>
      obtain ⟨all, _, fine₂⟩ := passed₂ rfl
      have all : n = super.zmapBlocks := all
      subst all
      have notFails : ¬ MapsFail disk w.device.clock memory super :=
        not_mapsFail counts (by simpa using memoryMap) fine fine₂
      cases memoryRoot : memory.root with
      | true =>
        refine (mountRoot_caches bits superBlock imap zmap _).after.mono fun _ _ cached => ?_
        exact .inr ⟨notFails, .inl ⟨rfl, cached⟩⟩
      | false =>
        by_cases empty : w.state.icache = []
        · have imapEarly : imap 0 < w₁.device.next := early₁ _ (by
            simp only [mapHandles, List.mem_append, List.mem_map, List.mem_range'_1]
            exact .inl ⟨0, by omega, rfl⟩)
          rw [state]
          refine (mountRoot_starved (w := ⟨{ w.state with
            super := super, superBlock := superBlock, blocksizeBits := bits, numInodeReferences := 0,
            imap := imap, zmap := zmap }, w₂.device⟩) empty rfl (not_or.mp counts) leaves₂ ?_ ?_).mono ?_
          · rw [kept _ imapEarly]
            exact numbers rfl 0 (by omega)
          · exact numbers₂ rfl 0 (by omega)
          · rintro r w' ⟨error, ⟨super', superBlock', bits', imap', zmap', n', state'⟩, rest⟩
            exact .inl ⟨.inr ⟨empty, rfl⟩, error, ⟨_, _, _, _, _, _, state'⟩, rest⟩
        · exact (always_true _ _).after.mono fun _ _ _ => .inr ⟨notFails, .inr empty⟩

theorem mount_after {bits : Nat} {memory : Allocations} (some : memory.filesystem = true) :
    After disk (mount bits memory) (fun r w' =>
      (FailsBeforeRoot disk bits memory w.device ∨ w.state.icache = [] ∧ memory.root = false) ∧
        (∃ e, r = .error e) ∧ Left (w.device.super bits) w.device [] w.state w' ∨
      ¬ FailsBeforeRoot disk bits memory w.device ∧
        (memory.root = true ∧ w'.state.icache ≠ [] ∨ w.state.icache ≠ [])) w := by
  have unchanged : Overwritten w.state w.state := ⟨_, _, _, _, _, _, rfl⟩
  simp only [mount, meets_bind]
  refine meets_fix (fun fixed => ?_) (fun e failure => ?_)
  · have leaves : w.device.Leaves (w.device.hold (superBlockNo bits)).tick [w.device.next] :=
      (Device.Leaves.refl w.device).hold (by simp) (superBlockNo bits)
    simp only [meets_bind]
    refine after_load fun bytes loaded => ?_
    rw [Device.load_hold] at loaded
    cases loaded
    split
    · rename_i bad
      refine meets_bind.mpr (meets_unfix.mpr (.inl ⟨.inl (.inr (.inr ?_)), ⟨_, rfl⟩,
        .of_leaves unchanged leaves.unfix⟩))
      exact bad.elim .inl fun bad => .inr (.inl bad)
    · rename_i good
      obtain ⟨magic, supported⟩ := not_or.mp good
      have fails : FailsBeforeRoot disk bits memory w.device ↔
          MapsFail disk (w.device.clock + 1) memory (w.device.super bits) := by
        refine ⟨?_, fun maps => .inr (.inr (.inr (.inr maps)))⟩
        rintro (none | failure | wrong | wrong | maps)
        · exact absurd (none.symm.trans some) Bool.false_ne_true
        · exact absurd fixed failure
        · exact absurd wrong magic
        · exact absurd wrong supported
        · exact maps
      rw [fails]
      exact mountMaps_after (w := ⟨w.state, (w.device.hold (superBlockNo bits)).tick⟩) memory
        (w.device.super bits) leaves fun h member => List.mem_singleton.mp member ▸ Nat.lt_succ_self _
  · exact .inl ⟨.inl (.inr (.inl (by simp [failure]))), ⟨e, rfl⟩,
      .of_leaves unchanged (Device.Leaves.refl w.device).tick⟩

end Mount

theorem Left.noTrace {bits : Nat} {w w' : World Fs} (unmounted : w.state.mounted = false)
    (left : Left (w.device.super bits) w.device [] w.state w') : NoTrace bits w w' := by
  obtain ⟨state, contents, marked, leaves⟩ := left
  refine ⟨?_, state, ?_, leaves.same.blocks, fun b late early => ?_⟩
  · obtain ⟨_, _, _, _, _, _, same⟩ := state
    rw [same]
    exact unmounted
  · rw [leaves.same.contents]
    exact marked
  · by_contra present
    have present : (w'.device.blocks b).present = true := by simpa using present
    exact absurd (leaves.held b late early present) (List.not_mem_nil)

end Minix

namespace VFS

/-- A mount that fails leaves nothing behind exactly if it fails before the root inode is asked
for, or if there is no memory for that: otherwise, there is an inode of the file system that was
given up in the cache. -/
theorem mount_leaves_no_trace (disk : Disk Errno) (bits : Nat) (memory : Minix.Allocations)
    (w w' : World Fs) (e : Errno) (unmounted : w.state.mounted = false)
    (failed : (mount bits memory).run disk w = .ok (.error e, w')) :
    (Minix.FailsBeforeRoot disk bits memory w.device → NoTrace bits w w') ∧
      (w.state.icache = [] → (NoTrace bits w w' ↔
        Minix.FailsBeforeRoot disk bits memory w.device ∨ memory.root = false)) := by
  have after : After disk (mount bits memory) (fun r w' => r = .error e →
      (Minix.FailsBeforeRoot disk bits memory w.device ∨ w.state.icache = [] ∧ memory.root = false) ∧
        Minix.Left (w.device.super bits) w.device [] w.state w' ∨
      ¬ Minix.FailsBeforeRoot disk bits memory w.device ∧
        (memory.root = true ∧ w'.state.icache ≠ [] ∨ w.state.icache ≠ [])) w := by
    unfold mount
    simp only [meets_bind, meets_get, unmounted, Bool.false_eq_true, if_false]
    split
    · rename_i none
      exact fun _ => .inl ⟨.inl (.inl (by simpa using none)),
        .of_leaves ⟨_, _, _, _, _, _, rfl⟩ (.refl _)⟩
    rename_i some
    refine meets_bind.mpr ((Minix.mount_after (by simpa using some)).mono ?_)
    rintro r w₁ post
    cases r with
    | error e' =>
      rintro -
      rcases post with ⟨fails, _, left⟩ | late
      · exact .inl ⟨fails, left⟩
      · exact .inr late
    | ok _ =>
      rintro ⟨⟩
  rcases after.of_run failed rfl with ⟨fails, left⟩ | ⟨fine, cached⟩
  · refine ⟨fun _ => left.noTrace unmounted, fun _ => iff_of_true (left.noTrace unmounted) ?_⟩
    exact fails.imp_right And.right
  · refine ⟨fun fails => absurd fails fine, fun empty => iff_of_false (fun noTrace => ?_) ?_⟩
    · obtain ⟨_, _, _, _, _, _, same⟩ := noTrace.state
      rcases cached with ⟨_, cached⟩ | cached
      · rw [same] at cached
        exact cached empty
      · exact cached empty
    · rcases cached with ⟨some, _⟩ | cached
      · exact not_or.mpr ⟨fine, by simp [some]⟩
      · exact absurd empty cached

open SmallImage

/-- The root inode is a regular file. -/
def withFileAsRoot : Nat → Bytes :=
  image (imap 7) (zmap 3) (record 1 fileMode 1 0 0 zeroes) rootEntries

/-- A mount that fails with the error, in a state that passes the check. -/
theorem mount_fails (disk : Disk Errno) (w : World Fs) (check : Fs → Bool)
    (checked : ((mount 10 .all).run disk w).toOption.any (fun r =>
      r.1.toOption.isNone && check r.2.state) = true) :
    ∃ e w', (mount 10 .all).run disk w = .ok (.error e, w') ∧ check w'.state = true := by
  cases ran : (mount 10 .all).run disk w with
  | error f =>
    rw [ran] at checked
    cases checked
  | ok r =>
    rw [ran] at checked
    obtain ⟨result, w'⟩ := r
    cases result with
    | ok _ => cases checked
    | error e => exact ⟨e, w', rfl, checked⟩

theorem mount_bitmap_fails_no_trace : ∃ e w',
    (mount 10 .all).run ⟨false, fun _ n => if n = 3 then some .eio else none⟩ (.initial withFile) =
      .ok (.error e, w') ∧ NoTrace 10 (.initial withFile) w' := by
  obtain ⟨e, w', failed, _⟩ := mount_fails
    ⟨false, fun _ n => if n = 3 then some .eio else none⟩ (.initial withFile) (fun _ => true)
    (by decide +kernel)
  refine ⟨e, w', failed, (mount_leaves_no_trace _ _ _ _ _ _ rfl failed).1 (.inr (.inr (.inr (.inr ?_))))⟩
  exact .inr (.inr (.inr ⟨1, by decide +kernel, by decide +kernel⟩))

theorem mount_file_root_traced : ∃ e w',
    (mount 10 .all).run ⟨false, neverFails⟩ (.initial withFileAsRoot) = .ok (.error e, w') ∧
      ¬ NoTrace 10 (.initial withFileAsRoot) w' := by
  obtain ⟨e, w', failed, cached⟩ := mount_fails ⟨false, neverFails⟩ (.initial withFileAsRoot)
    (fun s => !s.icache.isEmpty) (by decide +kernel)
  refine ⟨e, w', failed, fun noTrace => ?_⟩
  obtain ⟨_, _, _, _, _, _, same⟩ := noTrace.state
  rw [same] at cached
  cases cached

end VFS

end MPStuBS
