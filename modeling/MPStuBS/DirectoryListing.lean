import MPStuBS.DescriptorTable
import MPStuBS.DirentRecords
import MPStuBS.TreeWalks

/-! What `iterate_dir` and `getdents` list of a directory whose entries name inodes that have links. -/
namespace MPStuBS.VFS

open Prog FsM Minix Filesystem
open Dirent (WellSized)

section Records

variable {bytes : Bytes} {k : Nat}

/-- What a record says: a C string and the number of an inode. -/
def entryOf (r : Dirent) : PathName × Nat := (r.name.takeWhile (· != 0), r.ino)

/-- The slots of a directory that are not free. -/
def live (slots : List (PathName × Nat)) : List (PathName × Nat) := slots.filter fun slot => slot.2 ≠ 0

theorem live_append (l l' : List (PathName × Nat)) : live (l ++ l') = live l ++ live l' := List.filter_append ..

theorem namelen_le (n : Nat) : namelen bytes k n ≤ n := by
  induction n with
  | zero => exact Nat.le_refl 0
  | succ n ih =>
    unfold namelen
    split <;> omega

theorem take_succ_last (bytes : Bytes) (start n : Nat) :
    take bytes start (n + 1) = take bytes start n ++ [bytes (start + n)] := by
  rw [take_eq_map, take_eq_map, List.range_succ, List.map_append]
  rfl

/-- Without the null bytes at its end a name is the same C string. -/
theorem takeWhile_namelen (n : Nat) : (take bytes (64 * k + 4) (namelen bytes k n)).takeWhile (· != 0) =
    (take bytes (64 * k + 4) n).takeWhile (· != 0) := by
  induction n with
  | zero => rfl
  | succ n ih =>
    unfold namelen
    split
    · rename_i zero
      rw [ih, take_succ_last, zero, List.takeWhile_append]
      split
      · rename_i whole
        rw [List.takeWhile_cons_of_neg (by simp), List.append_nil]
        exact (List.takeWhile_prefix _).eq_of_length whole
      · rfl
    · rfl

/-- The name of a record is that of its slot. -/
theorem takeWhile_name : (take bytes (64 * k + 4) (namelen bytes k 60)).takeWhile (· != 0) = nameAt bytes k :=
  takeWhile_namelen 60

end Records

variable {disk : Disk Errno} {allowed : FsFault → Prop} {t : SlotTree} {known : Nat → Prop} {w₀ w w' : World Fs}
  {view₀ view view' : Nat → Bytes}

section Blocks

/-- The blocks of the bitmaps were fixed before all others. -/
def Anchored (w : World Fs) : Prop := ∀ i, w.state.imap i < w.device.next ∧ w.state.zmap i < w.device.next

/-- While a directory is looked at, inodes come into the cache and leave it. -/
structure Browses (disk : Disk Errno) (t : SlotTree) (known : Nat → Prop) (w₀ : World Fs) (view₀ : Nat → Bytes)
    (w : World Fs) (view : Nat → Bytes) : Prop where
  pictured : Pictures disk t w view
  linked : Linked known w view
  goes : Goes w₀ w []
  lasts : Lasts w₀ w view₀ view
  next : w₀.device.next ≤ w.device.next

/-- A block that was fixed for reading. -/
structure Borrows (disk : Disk Errno) (w : World Fs) (b z : Nat) (bytes : Bytes) : Prop where
  early : b < w.device.next
  present : (w.device.blocks b).present = true
  number : w.device.number b = z
  clean : (w.device.blocks b).dirty = false
  copy : disk.copies = true → (w.device.blocks b).copy = bytes

theorem Borrows.load {b z : Nat} {bytes : Bytes} (borrows : Borrows disk w b z bytes)
    (same : w.device.contents z = bytes) : w.device.load disk b = some bytes := by
  rw [Device.load_eq borrows.present, borrows.number]
  split
  · rename_i copies
    rw [borrows.copy copies]
  · rw [same]

/-- A handle of a bitmap. -/
def IsMap (w : World Fs) (h : Nat) : Prop := ∃ i, h = w.state.imap i ∨ h = w.state.zmap i

theorem maps_isMap (goes : Goes w₀ w []) : Maps (IsMap w₀) w.state :=
  ⟨fun i => ⟨i, .inl (by rw [goes.volume.imap])⟩, fun i => ⟨i, .inr (by rw [goes.volume.zmap])⟩⟩

theorem Borrows.spared {b z : Nat} {bytes : Bytes} (borrows : Borrows disk w b z bytes) (anchored : Anchored w₀)
    (late : w₀.device.next ≤ b) (spared : w.device.Spared (IsMap w₀) w.device.next w'.device) :
    Borrows disk w' b z bytes := by
  have same := spared.others b borrows.early (by
    rintro ⟨i, rfl | rfl⟩
    · exact absurd (anchored i).1 (Nat.not_lt.mpr late)
    · exact absurd (anchored i).2 (Nat.not_lt.mpr late))
  refine ⟨Nat.lt_of_lt_of_le borrows.early spared.next, ?_, ?_, ?_, fun copies => ?_⟩
  · rw [same]
    exact borrows.present
  · exact (congrArg Block.number same).trans borrows.number
  · rw [same]
    exact borrows.clean
  · rw [same]
    exact borrows.copy copies

end Blocks

section Visit

variable {ino : Nat}

theorem Browses.refl (pictured : Pictures disk t w view) (linked : Linked known w view) :
    Browses disk t known w view w view :=
  ⟨pictured, linked, .refl w, .of_state view rfl, Nat.le_refl _⟩

/-- An inode that has links is taken into the cache, looked at and given back. -/
theorem visit_browses {α : Type} {rest : Nat → FsM α} {post : α → World Fs → Prop} (reliable : Reliable disk)
    (browses : Browses disk t known w₀ view₀ w view) (isKnown : known ino)
    (visited : ∀ type < 256, ∀ w' view', Browses disk t known w₀ view₀ w' view' →
      w.device.Spared (IsMap w₀) w.device.next w'.device → Meets disk allowed (rest type) post w') :
    Meets disk allowed (do
      match ← iget ino with
      | .error _ => do
        let type ← Pure.pure 0
        rest type
      | .ok inode => do
        let i ← FsM.inode inode
        Inode.put inode
        let type ← Pure.pure (i.mode >>> 12 &&& 15)
        rest type) post w := by
  obtain ⟨pictured, linked, goes, lasts, next⟩ := browses
  have maps := maps_isMap goes
  rw [meets_bind]
  refine ((iget_takes reliable pictured linked isKnown).and_after ((spare_iget ino).after maps (Nat.le_refl _))).mono ?_
  rintro _ w₁ ⟨⟨o, view₁, rfl, pictured₁, linked₁, goes₁, lasts₁, refers⟩, -, maps₁, spared₁⟩
  rw [meets_bind, meets_inode (refers.live pictured₁), meets_bind]
  have all := goes.trans goes₁
  refine ((put_recounts pictured₁ all).and_after ((Inode.spare_put o).after maps₁ (Nat.le_refl _))).mono ?_
  rintro _ w₂ ⟨⟨recounts, goes₂⟩, -, -, spared₂⟩
  have spared := spared₁.trans ⟨spared₂.next, fun b before => spared₂.present b (Nat.lt_of_lt_of_le before spared₁.next),
    fun b before => spared₂.others b (Nat.lt_of_lt_of_le before spared₁.next)⟩
  have type : (w₁.state.inodes o).mode >>> 12 &&& 15 < 256 := Nat.lt_of_le_of_lt Nat.and_le_right (by decide)
  exact visited _ type w₂ view₁ ⟨recounts.pictures pictured₁, recounts.linked linked₁, goes₂,
    (lasts.trans goes lasts₁).trans all (recounts.lasts view₁), next.trans spared.next⟩ spared

end Visit

section Slots

variable {l : List (PathName × Nat)} {a m m' : Nat} {ctx ctx' ctx'' : ReaddirContext}

/-- The context has gone on over some slots, with a record for every one of them that is live. -/
structure Emits (l : List (PathName × Nat)) (a m : Nat) (ctx ctx' : ReaddirContext) : Prop where
  pos : ctx'.pos = ctx.pos + (64 * m : Nat)
  error : ctx'.error = none
  bufSize : ctx'.bufSize = ctx.bufSize
  records : ∃ rs, ctx'.records = ctx.records ++ rs ∧ rs.map entryOf = live ((l.drop a).take m) ∧
    (∀ r ∈ rs, WellSized r) ∧ ctx'.bufUsed = ctx.bufUsed + (rs.map Dirent.reclen).sum

theorem Emits.refl (l : List (PathName × Nat)) (a : Nat) (error : ctx.error = none) : Emits l a 0 ctx ctx :=
  ⟨by simp, error, rfl, [], by simp [live]⟩

theorem Emits.trans (fst : Emits l a m ctx ctx') (snd : Emits l (a + m) m' ctx' ctx'') :
    Emits l a (m + m') ctx ctx'' := by
  obtain ⟨rs, records, entries, sized, used⟩ := fst.records
  obtain ⟨rs', records', entries', sized', used'⟩ := snd.records
  refine ⟨?_, snd.error, snd.bufSize.trans fst.bufSize, rs ++ rs', ?_, ?_, ?_, ?_⟩
  · rw [snd.pos, fst.pos]
    push_cast
    omega
  · rw [records', records, List.append_assoc]
  · rw [List.map_append, entries, entries', List.take_add, live_append, List.drop_drop]
  · exact fun r member => (List.mem_append.mp member).elim (sized r) (sized' r)
  · rw [used', used, List.map_append, List.sum_append, Nat.add_assoc]

theorem take_drop_one {slot : PathName × Nat} (here : l[a]? = some slot) : (l.drop a).take 1 = [slot] := by
  obtain ⟨inside, rfl⟩ := List.getElem?_eq_some_iff.mp here
  rw [List.drop_eq_getElem_cons inside, List.take_succ_cons, List.take_zero]

theorem Emits.skip {name : PathName} (here : l[a]? = some (name, 0)) (error : ctx.error = none) :
    Emits l a 1 ctx { ctx with pos := ctx.pos + 64 } :=
  ⟨rfl, error, rfl, [], by simp [take_drop_one here, live]⟩

/-- A record is emitted, or there is no more room behind others. -/
theorem dirEmit_cases {name : List UInt8} (error : ctx.error = none) (room : 85 < ctx.bufSize)
    (short : name.length ≤ 60) (ino type : Nat) : (ctx.dirEmit name ino type = (false, ctx) ∧ ctx.bufUsed ≠ 0) ∨
      ctx.dirEmit name ino type = (true, { ctx with
        bufUsed := ctx.bufUsed + (sizeofDirent + name.length + 1)
        records := ctx.records ++ [⟨ino, sizeofDirent + name.length + 1, type, name⟩] }) := by
  unfold ReaddirContext.dirEmit
  rw [if_neg (not_not_intro error)]
  dsimp only
  split
  · rename_i full
    unfold sizeofDirent at full
    have used : ctx.bufUsed ≠ 0 := by omega
    rw [if_neg used]
    exact .inl ⟨rfl, used⟩
  · exact .inr rfl

theorem Emits.emit {r : Dirent} (here : l[a]? = some (entryOf r)) (isLive : r.ino ≠ 0) (error : ctx.error = none)
    (sized : WellSized r) : Emits l a 1 ctx { ctx with
      pos := ctx.pos + 64
      bufUsed := ctx.bufUsed + r.reclen
      records := ctx.records ++ [r] } := by
  refine ⟨rfl, error, rfl, [r], rfl, ?_, by simpa using sized, by simp⟩
  rw [take_drop_one here]
  have kept : (entryOf r).2 ≠ 0 := isLive
  simp [live, kept]

variable (reliable : Reliable disk) (anchored : Anchored w₀) {b z : Nat} (late : w₀.device.next ≤ b)
  (safe : Safe w₀.state view₀ z) (isKnown : ∀ slot ∈ l, slot.2 ≠ 0 → known slot.2)
include reliable anchored late safe isKnown

/-- The slots of a block are emitted one after the other, until there is no more room. -/
theorem iterateBlock_emits (n : Nat) : ∀ {w view k a ctx}, Browses disk t known w₀ view₀ w view →
    Borrows disk w b z (view₀ z) → (∀ j < n, l[a + j]? = some (nameAt (view₀ z) (k + j), direntInode (view₀ z) (k + j))) →
    ctx.error = none → 85 < ctx.bufSize → Meets disk allowed (iterateBlock b n k ctx) (fun r w' =>
      (∃ view', Browses disk t known w₀ view₀ w' view') ∧ Borrows disk w' b z (view₀ z) ∧
        ∃ m ≤ n, Emits l a m ctx r.2 ∧ (r.1 = true → m = n) ∧ (r.1 = false → r.2.bufUsed ≠ 0)) w := by
  induction n with
  | zero => exact fun {w view k a ctx} browses borrows _ error _ =>
      ⟨⟨view, browses⟩, borrows, 0, Nat.le_refl 0, .refl l a error, fun _ => rfl, fun other => by cases other⟩
  | succ n ih =>
    intro w view k a ctx browses borrows slots error room
    have loads : ∀ {w view}, Browses disk t known w₀ view₀ w view → Borrows disk w b z (view₀ z) →
        w.device.load disk b = some (view₀ z) := fun browses borrows => by
      refine borrows.load ?_
      rw [browses.pictured.contents (browses.lasts.safe z safe), browses.lasts.blocks z safe]
    have here := slots 0 (Nat.succ_pos n)
    rw [Nat.add_zero, Nat.add_zero] at here
    have rest : ∀ j < n, l[a + 1 + j]? = some (nameAt (view₀ z) (k + 1 + j), direntInode (view₀ z) (k + 1 + j)) := by
      intro j inside
      have next := slots (j + 1) (by omega)
      rwa [show a + (j + 1) = a + 1 + j by omega, show k + (j + 1) = k + 1 + j by omega] at next
    rw [iterateBlock, meets_bind, meets_load (loads browses borrows)]
    split
    · rename_i free
      rw [free] at here
      refine (ih browses borrows rest (by exact error) (by exact room)).mono ?_
      rintro r w' ⟨browses', borrows', m, bound, emits, whole, full⟩
      refine ⟨browses', borrows', 1 + m, by omega, (Emits.skip here error).trans emits, fun go => ?_, full⟩
      rw [whole go, Nat.add_comm]
    · rename_i isLive
      refine visit_browses reliable browses (isKnown _ (List.mem_of_getElem? here) isLive) fun type small w₁ view₁ browses₁ spared => ?_
      have borrows₁ := borrows.spared anchored late spared
      rw [meets_bind, meets_load (loads browses₁ borrows₁)]
      dsimp only
      have named : _ = nameAt (view₀ z) k := takeWhile_name
      have short : (take (view₀ z) (64 * k + 4) (namelen (view₀ z) k 60)).length ≤ 60 := by
        rw [length_take]
        exact namelen_le 60
      generalize take (view₀ z) (64 * k + 4) (namelen (view₀ z) k 60) = name at named short ⊢
      rcases dirEmit_cases error room short (direntInode (view₀ z) k) type with ⟨stopped, used⟩ | emitted
      · rw [stopped]
        refine ⟨⟨view₁, browses₁⟩, borrows₁, 0, Nat.zero_le _, .refl l a error, fun go => ?_, fun _ => used⟩
        cases go
      · rw [emitted]
        refine (ih browses₁ borrows₁ rest (by exact error) (by exact room)).mono ?_
        rintro r w' ⟨browses', borrows', m, bound, emits, whole, full⟩
        have sized : WellSized ⟨direntInode (view₀ z) k, sizeofDirent + name.length + 1, type, name⟩ :=
          ⟨rfl, short, Bytes.u32_lt _ _, small⟩
        have first := Emits.emit (by rw [here]; exact congrArg some (Prod.ext named.symm rfl)) isLive error sized
        refine ⟨browses', borrows', 1 + m, by omega, first.trans emits, fun go => ?_, full⟩
        rw [whole go, Nat.add_comm]

end Slots

section Directory

variable {o : Nat} {slots : List (PathName × Nat)}

/-- The object is in use and is that of a directory with these slots. -/
structure Directory (w : World Fs) (view : Nat → Bytes) (o : Nat) (slots : List (PathName × Nat)) : Prop
    extends OnDisk w.state view (Safe w.state view) (w.state.inodes o) where
  cached : o ∈ w.state.icache
  used : w.state.refs o ≠ 0
  mode : Mode.isDir (w.state.inodes o).mode = true
  whole : (w.state.inodes o).size.toNat % 64 = 0
  slots : slotsOf view w.state (w.state.inodes o) = slots

/-- The directories of the tree. -/
theorem Refers.directory {ino parent : Nat} {entries : PathName → Option Nat}
    (found : t.node ino = some (.dir parent entries)) (pictured : Pictures disk t w view) (refers : Refers w o ino) :
    Directory w view o (t.slots ino) := by
  have shown := refers.shown pictured found
  have shows : ShowsDir w.state view (Safe w.state view) (w.state.inodes o) parent entries := shown.depicts
  exact ⟨shows.toOnDisk, refers.cached, refers.used, shows.mode, shows.whole, shown.listed parent entries rfl⟩

theorem Directory.length (directory : Directory w view o slots) :
    slots.length = (w.state.inodes o).size.toNat / 64 := by
  rw [← directory.slots]
  simp [slotsOf]

theorem Directory.valid (directory : Directory w view o slots) (pictured : Pictures disk t w view) :
    ValidInode w.state (w.state.inodes o) :=
  directory.toOnDisk.valid pictured.formed (pictured.settled.live o directory.cached)

theorem Browses.trans {w₁ w₂ : World Fs} {view₁ view₂ : Nat → Bytes} (fst : Browses disk t known w₀ view₀ w₁ view₁)
    (snd : Browses disk t known w₁ view₁ w₂ view₂) : Browses disk t known w₀ view₀ w₂ view₂ :=
  ⟨snd.pictured, snd.linked, fst.goes.trans snd.goes, fst.lasts.trans fst.goes snd.lasts, fst.next.trans snd.next⟩

theorem Browses.anchored (browses : Browses disk t known w₀ view₀ w view) (anchored : Anchored w₀) : Anchored w := by
  intro i
  rw [browses.goes.volume.imap, browses.goes.volume.zmap]
  exact ⟨Nat.lt_of_lt_of_le (anchored i).1 browses.next, Nat.lt_of_lt_of_le (anchored i).2 browses.next⟩

/-- Only the device has gone on. -/
theorem Browses.device {d : Device} (pictured : Pictures disk t w view) (linked : Linked known w view)
    (stored : Stored disk ⟨w.state, d⟩ [] [] view) (next : w.device.next ≤ d.next) :
    Browses disk t known w view ⟨w.state, d⟩ view :=
  ⟨pictured.device rfl stored, ⟨linked.numbered, linked.cached, linked.recorded⟩, .of_state rfl, .of_state view rfl, next⟩

/-- A block that was only read is given back. -/
theorem Browses.unfix {b : Nat} (browses : Browses disk t known w₀ view₀ w view) (anchored : Anchored w₀)
    (late : w₀.device.next ≤ b) : Browses disk t known w₀ view₀ ⟨w.state, w.device.exec disk b .unfix⟩ view := by
  have stored := browses.pictured.stored
  refine browses.trans (.device browses.pictured browses.linked (stored.follow rfl rfl rfl (Device.follows_exec .unfix)
    (stored.holds.release fun member => ?_)) (Nat.le_of_eq (Device.next_exec .unfix).symm))
  rw [List.nil_append, List.nil_append] at member
  unfold Fs.mapHandles at member
  rw [List.mem_append, List.mem_map, List.mem_map, browses.goes.volume.imap, browses.goes.volume.zmap] at member
  rcases member with ⟨i, -, rfl⟩ | ⟨i, -, rfl⟩
  · exact absurd (anchored i).1 (Nat.not_lt.mpr late)
  · exact absurd (anchored i).2 (Nat.not_lt.mpr late)

/-- What is looked at does not change the directory. -/
theorem Directory.browsed (directory : Directory w₀ view₀ o slots) (browses : Browses disk t known w₀ view₀ w view) :
    Directory w view o slots := by
  obtain ⟨-, -, goes, lasts, -⟩ := browses
  have same : SameBlocks w₀.state w.state view₀ view (Safe w₀.state view₀) (Safe w.state view) (w₀.state.inodes o)
      (w.state.inodes o) :=
    ⟨goes.volume.blocksizeBits, lasts.blocks, lasts.safe, lasts.files o directory.cached directory.used⟩
  refine ⟨same.onDisk directory.toOnDisk, (goes.used o directory.cached directory.used).1, ?_, ?_, ?_, ?_⟩
  · have used := directory.used
    rw [goes.refs]
    omega
  · rw [same.file.mode]
    exact directory.mode
  · rw [same.file.size]
    exact directory.whole
  · rw [same.slotsOf directory.toOnDisk]
    exact directory.slots

variable (reliable : Reliable disk)
include reliable

/-- A block of a directory is fixed, and has the slots that are listed there. -/
theorem opens_block {α : Type} {lblock : Nat} {rest : Nat → Nat → FsM (Except Errno α)}
    {post : Except Errno α → World Fs → Prop} (pictured : Pictures disk t w view) (linked : Linked known w view)
    (directory : Directory w view o slots) (started : lblock * (w.state.blocksize / 64) < slots.length)
    (read : ∀ b z d, Browses disk t known w view ⟨w.state, d⟩ view → w.device.next ≤ b →
      Borrows disk ⟨w.state, d⟩ b z (view z) → Safe w.state view z →
      (∀ j < slotsIn slots.length (w.state.blocksize / 64) lblock,
        slots[lblock * (w.state.blocksize / 64) + j]? = some (nameAt (view z) j, direntInode (view z) j)) →
      Meets disk allowed (rest b (64 * slotsIn slots.length (w.state.blocksize / 64) lblock)) post ⟨w.state, d⟩) :
    Meets disk allowed (do
      match ← getBlock o lblock false with
      | .error e => Pure.pure (.error e)
      | .ok blockno => do
        match ← fix blockno with
        | .error e => Pure.pure (.error e)
        | .ok block => do
          let lastByte ← dirBlockLastByte o lblock
          rest block lastByte) post w := by
  have valid := directory.valid pictured
  have length := directory.length
  obtain ⟨whole, positive⟩ := slots_per_block valid
  have inside : 64 * (lblock * (w.state.blocksize / 64)) < (w.state.inodes o).size.toNat := by omega
  have here : 64 * (lblock * (w.state.blocksize / 64)) / w.state.blocksize = lblock := (slot_place valid positive lblock).1
  have addressed : lblock < addressable w.state.indirCount := here ▸ valid.block_lt inside
  have zone := (pictured.sameContents (w.state.inodes o)).zoneAt directory.toOnDisk inside
  unfold zoneAt at zone
  rw [here] at zone
  set z := zoneOf view (w.state.inodes o).data (blockToPath w.state.indirCount lblock) with zDef
  have safe : Safe w.state view z := by
    have := directory.safe_zoneAt inside
    unfold zoneAt at this
    rwa [here] at this
  rw [meets_bind]
  refine ((getBlock_finds valid.live valid.entries valid.small addressed).and_after ((peeks_getBlock o lblock).after
    (Nat.le_refl _))).mono ?_
  rintro r ⟨s₁, d₁⟩ ⟨⟨state, device, finds⟩, -, -, peeked⟩
  obtain rfl : s₁ = w.state := state
  have stored : Stored disk ⟨w.state, d₁⟩ [] [] view := pictured.stored.peeked rfl peeked
  cases r with
  | error e =>
    obtain ⟨clock, number, failure⟩ := finds
    rw [reliable] at failure
    cases failure
  | ok blockno =>
    obtain rfl : blockno = z := (show blockno = _ from finds).trans zone
    dsimp only
    rw [meets_bind]
    refine meets_fix (fun _ => ?_) fun e failure => ?_
    · have held : Stored disk ⟨w.state, (d₁.hold z).tick⟩ [] [] view :=
        stored.follow rfl rfl rfl (Device.follows_hold z) ⟨stored.holds.shows.hold z, by simp⟩
      have contents : d₁.contents z = view z := Stored.contents stored (pictured.formed.layout.table.trans safe.zone.first)
      dsimp only
      rw [meets_bind, dirBlockLastByte_slots (w := ⟨w.state, (d₁.hold z).tick⟩) valid directory.whole, ← length]
      refine read d₁.next z _ (.device pictured linked held (peeked.next.trans (Nat.le_succ _))) peeked.next ?_ safe
        fun j less => ?_
      · refine ⟨Nat.lt_succ_self _, ?_, Device.number_hold z, ?_, fun _ => ?_⟩
        · rw [Device.blocks_hold]
        · rw [Device.blocks_hold]
        · rw [Device.blocks_hold]
          exact contents
      · obtain ⟨block, place⟩ := slot_place valid (Nat.lt_of_lt_of_le less (slotsIn_le positive)) lblock
        have bound := slot_lt positive started less
        rw [← directory.slots]
        unfold slotsOf slotBlock zoneAt
        rw [List.getElem?_map, List.getElem?_range (by omega), Option.map_some, block, place]
    · rw [reliable] at failure
      cases failure

omit reliable in
/-- The slots up to the end of a block. -/
theorem slotsIn_end {slots per lblock : Nat} (positive : 0 < per) (started : lblock * per < slots) :
    lblock * per + slotsIn slots per lblock = min ((lblock + 1) * per) slots := by
  rcases Nat.lt_or_ge slots ((lblock + 1) * per) with last | more
  · have upper : slotsIn slots per lblock ≤ per := slotsIn_le positive
    have lower : slots - 1 < lblock * per + slotsIn slots per lblock := lt_slots (by omega) (by omega)
    have all : ∀ j < slotsIn slots per lblock, lblock * per + j < slots := fun j inside => slot_lt positive started inside
    rcases Nat.eq_zero_or_pos (slotsIn slots per lblock) with none | some
    · omega
    · have := all (slotsIn slots per lblock - 1) (by omega)
      omega
  · have upper : slotsIn slots per lblock ≤ per := slotsIn_le positive
    have lower : (lblock + 1) * per - 1 < lblock * per + slotsIn slots per lblock :=
      lt_slots (by rw [Nat.succ_mul] at *; omega) (by rw [Nat.succ_mul] at *; omega)
    rw [Nat.succ_mul] at *
    omega

omit reliable in
/-- The block of a slot and its place there. -/
theorem u64_slot {a bs per : Nat} (whole : bs = 64 * per) (small : 64 * a < 9223372036854775808) :
    u64 (((64 * a : Nat) : Int) / bs) = a / per ∧ u64 (((64 * a : Nat) : Int) % bs) / 64 = a % per := by
  subst whole
  have quotient := Nat.div_le_self a per
  have remainder := Nat.mod_le a per
  rw [← Int.natCast_ediv, ← Int.natCast_emod, Nat.mul_div_mul_left _ _ (by omega), Nat.mul_mod_mul_left]
  unfold u64
  generalize a / per = q at quotient ⊢
  generalize a % per = r at remainder ⊢
  omega

variable (anchored : Anchored w₀) (isKnown : ∀ slot ∈ slots, slot.2 ≠ 0 → known slot.2)
include anchored isKnown

/-- The blocks of a directory are listed one after the other, until there is no more room. -/
theorem iterateLoop_emits (n : Nat) : ∀ {w view lblock offset a ctx}, Browses disk t known w₀ view₀ w view →
    Directory w view o slots → offset / 64 < w.state.blocksize / 64 →
    lblock + n = dirNumBlocks w.state (w.state.inodes o) →
    a = min (lblock * (w.state.blocksize / 64) + offset / 64) slots.length →
    (offset / 64 = 0 ∨ a < slots.length) → ctx.error = none → 85 < ctx.bufSize →
    Meets disk allowed (iterateLoop o n lblock offset ctx) (fun r w' => (∃ view', Browses disk t known w₀ view₀ w' view') ∧
      ∃ ctx' m, r = .ok ctx' ∧ Emits slots a m ctx ctx' ∧ a + m ≤ slots.length ∧
        (a + m < slots.length → ctx'.bufUsed ≠ 0)) w := by
  induction n with
  | zero =>
    intro w view lblock offset a ctx browses directory inBlock done start _ error room
    have valid := directory.valid browses.pictured
    have length := directory.length
    have whole : a = slots.length := by
      have last : ∀ k, k < (w.state.inodes o).size.toNat / 64 → k < lblock * (w.state.blocksize / 64) := fun k bound =>
        slot_before_end valid directory.whole bound (by omega)
      rw [← length] at last
      rcases Nat.eq_zero_or_pos slots.length with none | some
      · omega
      · have := last (slots.length - 1) (by omega)
        omega
    exact ⟨⟨view, browses⟩, ctx, 0, rfl, .refl _ a error, by omega, fun more => absurd more (by omega)⟩
  | succ n ih =>
    intro w view lblock offset a ctx browses directory inBlock done start inside error room
    have valid := directory.valid browses.pictured
    have length := directory.length
    obtain ⟨-, positive⟩ := slots_per_block valid
    have started : lblock * (w.state.blocksize / 64) < slots.length := by
      rw [length]
      refine lblock_mul_lt positive ?_
      rw [← dirNumBlocks_slots valid directory.whole]
      omega
    have stop := slotsIn_end positive started
    have fits : a = lblock * (w.state.blocksize / 64) + offset / 64 ∧
        offset / 64 < slotsIn slots.length (w.state.blocksize / 64) lblock := by
      rw [Nat.succ_mul] at stop
      omega
    unfold iterateLoop
    refine opens_block reliable browses.pictured browses.linked directory started
      fun b z d browses₁ late borrows safe listed => ?_
    rw [meets_bind, Nat.mul_div_cancel_left _ (by omega)]
    refine (iterateBlock_emits reliable (browses.anchored anchored) late safe isKnown _ browses₁ borrows (a := a)
      (fun j less => ?_) error room).mono ?_
    · rw [fits.1, Nat.add_assoc]
      exact listed _ (by omega)
    rintro ⟨go, ctx'⟩ w₂ ⟨⟨view₂, browses₂⟩, -, m, bound, emits, whole, full⟩
    have released := (browses.trans (browses₂.unfix (browses.anchored anchored) late))
    dsimp only at emits whole full ⊢
    rw [meets_bind, meets_unfix]
    cases go with
    | false => exact ⟨⟨view₂, released⟩, ctx', m, rfl, emits, by omega, fun _ => full rfl⟩
    | true =>
      have directory' := directory.browsed (browses₂.unfix (browses.anchored anchored) late)
      have size : w₂.state.blocksize = w.state.blocksize := by
        unfold Fs.blocksize
        rw [browses₂.goes.volume.blocksizeBits]
      have blocks : dirNumBlocks w₂.state (w₂.state.inodes o) = dirNumBlocks w.state (w.state.inodes o) := by
        unfold dirNumBlocks
        rw [size, (browses₂.lasts.files o directory.cached directory.used).size]
      have end_ := whole rfl
      refine (ih released directory' (by simpa [size] using positive) ?_ (a := a + m) ?_ (.inl rfl) emits.error ?_).mono ?_
      · exact (by omega : lblock + 1 + n = dirNumBlocks w.state (w.state.inodes o)).trans blocks.symm
      · show a + m = min ((lblock + 1) * (w₂.state.blocksize / 64) + 0 / 64) slots.length
        rw [size]
        omega
      · rw [emits.bufSize]
        exact room
      · rintro r w' ⟨browses', ctx'', m', rfl, emits', inside', full'⟩
        exact ⟨browses', ctx'', m + m', rfl, emits.trans emits', by omega, fun more => full' (by omega)⟩

theorem iterateDir_emits {a : Nat} {ctx : ReaddirContext} (pictured : Pictures disk t w₀ view₀)
    (linked : Linked known w₀ view₀) (directory : Directory w₀ view₀ o slots) (pos : ctx.pos = (64 * a : Nat))
    (inside : a < slots.length) (error : ctx.error = none) (room : 85 < ctx.bufSize) :
    Meets disk allowed (iterateDir o ctx) (fun r w' => (∃ view', Browses disk t known w₀ view₀ w' view') ∧
      ∃ ctx' m, r = .ok ctx' ∧ Emits slots a m ctx ctx' ∧ a + m ≤ slots.length ∧
        (a + m < slots.length → ctx'.bufUsed ≠ 0)) w₀ := by
  have valid := directory.valid pictured
  have length := directory.length
  obtain ⟨whole, positive⟩ := slots_per_block valid
  have bounds := valid.bounds
  have aligned : u64 ctx.pos % 64 = 0 := by
    rw [pos]
    unfold u64
    omega
  have same : { ctx with pos := ctx.pos - (u64 ctx.pos % 64 : Nat) } = ctx := by
    rw [aligned, Nat.cast_zero, sub_zero]
  obtain ⟨block, offset⟩ := u64_slot whole (show 64 * a < _ by omega)
  rw [← pos] at block offset
  have split := Nat.div_add_mod' a (w₀.state.blocksize / 64)
  unfold iterateDir
  rw [meets_bind, meets_get, meets_bind, meets_inode valid.live, same]
  dsimp only
  rw [block]
  refine iterateLoop_emits reliable anchored isKnown _ (.refl pictured linked) directory ?_ ?_ ?_ (.inr inside) error room
  · rw [offset]
    exact Nat.mod_lt _ positive
  · refine Nat.add_sub_cancel' ?_
    by_contra beyond
    have : a < a / (w₀.state.blocksize / 64) * (w₀.state.blocksize / 64) :=
      slot_before_end valid directory.whole (by omega) (by omega)
    omega
  · rw [offset]
    omega

end Directory

section Files

variable {fd : Int} {file : File} {table : FdTable}

/-- The file of a descriptor, at another position. -/
theorem getFile_setPos (opened : table.getFile fd = some file) (pos : Int) :
    (table.setPos file.fd pos).getFile fd = some { file with pos := pos } := by
  unfold FdTable.getFile at opened ⊢
  split at opened
  · cases opened
  · rename_i positive
    have same : file.fd = fd.toNat := by simpa using List.find?_some opened
    rw [if_neg positive, same]
    unfold FdTable.setPos
    dsimp only
    rw [Function.update_self, List.find?_map]
    have found : (fun file : File => file.fd == fd.toNat) ∘ (fun file => if file.fd = fd.toNat then
        { file with pos := pos } else file) = fun file => file.fd == fd.toNat := by
      funext file
      simp only [Function.comp_apply]
      split <;> rfl
    rw [found, opened, Option.map_some, if_pos same, same]

/-- The world with another table of files. -/
def withFiles (w : World Fs) (table : FdTable) : World Fs := ⟨{ w.state with fdTable := table }, w.device⟩

theorem recounts_withFiles (w : World Fs) (table : FdTable) : Recounts w (withFiles w table) :=
  ⟨⟨rfl, rfl, rfl, rfl, rfl, rfl, rfl⟩, rfl, rfl, fun _ => ⟨_, rfl⟩, rfl⟩

end Files

section Getdents

variable {fd : Int} {file : File} {a : Nat} {count : Int} {slots : List (PathName × Nat)}

/-- What `getdents` returns of a directory: the next of its live slots, and none only at the end. -/
structure Returned (l : List (PathName × Nat)) (a m : Nat) (rs : List Dirent) : Prop where
  entries : rs.map entryOf = live ((l.drop a).take m)
  sized : ∀ r ∈ rs, WellSized r
  inside : a + m ≤ l.length
  more : rs = [] → a + m = l.length

theorem getdents_lists (reliable : Reliable disk) (pictured : Pictures disk t w view) (linked : Linked known w view)
    (anchored : Anchored w) (isKnown : ∀ slot ∈ slots, slot.2 ≠ 0 → known slot.2)
    (opened : w.state.fdTable.getFile fd = some file) (directory : Directory w view file.inode slots)
    (pos : file.pos = (64 * a : Nat)) (inside : a ≤ slots.length) (room : 85 < count) :
    Meets disk allowed (getdents fd count) (fun r w' => ∃ rs m w₁ view₁ table,
      r = .ok ((rs.map Dirent.reclen).sum, rs) ∧ Returned slots a m rs ∧ Browses disk t known w view w₁ view₁ ∧
        w' = withFiles w₁ table ∧ table.getFile fd = some { file with pos := (64 * (a + m) : Nat) } ∧
        w.state.fdTable.SameOpen table) w := by
  have length := directory.length
  have size := directory.size
  have whole := directory.whole
  unfold getdents
  rw [if_neg (by unfold sizeofDirent; omega), meets_bind, getFile, meets_bind, meets_get, meets_pure, opened]
  dsimp only
  rw [meets_bind, meets_inode (directory.valid pictured).live, directory.mode]
  simp only [Bool.not_true, Bool.false_eq_true, if_false]
  split
  · rename_i done
    have last : a = slots.length := by omega
    refine ⟨[], 0, w, view, w.state.fdTable, rfl, ⟨by simp [live], by simp, by omega, fun _ => last⟩,
      .refl pictured linked, rfl, ?_, .refl _⟩
    rw [opened, Nat.add_zero, ← pos]
  · rename_i more
    rw [meets_bind]
    refine (iterateDir_emits reliable anchored isKnown pictured linked directory pos (by omega) rfl
      (by dsimp only; omega)).mono ?_
    rintro r w₁ ⟨⟨view₁, browses⟩, ctx, m, rfl, emits, bound, full⟩
    obtain ⟨rs, records, entries, sized, used⟩ := emits.records
    obtain rfl : ctx.records = rs := records
    rw [Nat.zero_add] at used
    dsimp only
    rw [emits.error]
    dsimp only
    rw [meets_bind, setPos, meets_modify, meets_pure, used]
    refine ⟨ctx.records, m, w₁, view₁, _, rfl, ⟨entries, sized, bound, fun none => ?_⟩, browses, rfl, ?_, ?_⟩
    · rw [none] at used
      have := mt full (not_not_intro used)
      omega
    · rw [browses.goes.fdTable, getFile_setPos opened, emits.pos, pos]
      norm_num
      omega
    · rw [browses.goes.fdTable]
      exact FdTable.sameOpen_setPos _ _ _

end Getdents

end MPStuBS.VFS
