import MPStuBS.FunctionWalks
import MPStuBS.ProgramCosts
import MPStuBS.TreeEdits

/-! How often `free_block` releases a zone: each time it stores a block of the zone bitmap, which
nothing else does while an inode is truncated. -/
namespace MPStuBS

open Prog FsM Device

theorem Prog.Spends.follows {σ ε φ α : Type} {price : Nat → Command → Nat} {disk : Disk ε} {allowed : φ → Prop} {w : World σ}
    {p : Prog σ ε φ α} {post : α → Nat → World σ → Prop} (h : Spends price disk allowed p post w) :
    Spends price disk allowed p (fun a n w' => w.device.Follows w'.device ∧ post a n w') w := by
  unfold Spends at h ⊢
  split
  · rename_i a after returned
    rw [returned] at h
    exact ⟨run_follows p returned, h⟩
  · rename_i f faulted
    rwa [faulted] at h

/-- The handles of the zone bitmap. -/
def Fs.zoneMaps (s : Fs) : List Nat := (List.range s.super.zmapBlocks).map s.zmap

/-- A store to one of these blocks counts as one. -/
def releases (maps : List Nat) (block : Nat) : Command → Nat
  | .store _ => if block ∈ maps then 1 else 0
  | _ => 0

/-- The commands of the program are no such stores. -/
def Releasing (maps : List Nat) : FsM.Property where
  holds _ p post := p.Free (releases maps) post
  own _ := True
  mine _ := True
  stops _ := True

abbrev Costless {α : Type} (maps : List Nat) (p : FsM α) : Prop := p.Free (releases maps) fun _ => True

variable {maps : List Nat}

instance : Looks (Releasing maps) where
  pure holds := holds
  bind := Prog.Free.bind
  fault _ := trivial
  others _ := trivial
  get s := maps_all s
  fix _ _ _ := trivial
  peek h := h
  unfix _ := ⟨rfl, trivial⟩

namespace FsM

variable {b o : Nat}

theorem free_get : Costless maps get := fun _ => trivial

theorem free_fix {m : Nat} : Costless maps (fix m) := fun _ => trivial

theorem free_load : Costless maps (load b) := Has.load (K := Releasing maps) (b := b)

theorem free_markDirty : Costless maps (markDirty b) := ⟨rfl, trivial⟩

theorem free_forget : Costless maps (forget b) := ⟨rfl, rfl, trivial⟩

theorem free_setInode {f : Inode → Inode} : Costless maps (setInode o f) :=
  Looks.setInode (K := Releasing maps) (o := o) fun _ => trivial

end FsM

/-- A block that may be changed is none of the zone bitmap. -/
theorem Stored.notMem_zoneMaps {disk : Disk Errno} {w : World Fs} {kept pinned : List Nat} {view : Nat → Bytes}
    (stored : Stored disk w kept pinned view) {h : Nat} (member : h ∈ kept ++ pinned) : h ∉ w.state.zoneMaps := by
  intro inMaps
  have apart := stored.holds.shows.apart.of_map
  rw [← List.append_assoc] at apart
  refine (List.nodup_append.mp apart).2.2 h member h ?_ rfl
  exact List.mem_append_right _ inMaps

namespace Minix

variable {maps : List Nat}

theorem free_readEntry (ptr : Nat) (area : Area) (offset : Nat) : Costless maps (readEntry ptr area offset) :=
  has_readEntry (K := Releasing maps) ptr area offset

/-- The block of an entry, if it is in one, is none of these. -/
def Area.Off (maps : List Nat) : Area → Prop
  | .inode => True
  | .block handle => handle ∉ maps

theorem free_writeEntry (ptr : Nat) {area : Area} (off : area.Off maps) (offset value : Nat) :
    Costless maps (writeEntry ptr area offset value) := by
  cases area with
  | inode => exact .ite free_setInode trivial
  | block handle =>
    exact free_get.bind fun _ _ => free_load.bind fun _ _ => .ite ⟨if_neg off, trivial⟩ trivial

theorem free_markDirty (p : Indirect) : Costless maps p.markDirty := by
  unfold Indirect.markDirty
  split
  · exact trivial
  · exact FsM.free_markDirty

theorem own_chain (chain : List Indirect) : OwnChain (Releasing maps).own chain := fun _ _ _ _ => trivial

theorem free_unfix (p : Indirect) : Costless maps p.unfix := has_unfix (K := Releasing maps) fun _ _ => trivial

theorem free_unfixAll (chain : List Indirect) : Costless maps (unfixAll chain) :=
  has_unfixAll (K := Releasing maps) (own_chain chain)

theorem free_getBranch (ptr : Nat) (path : List Nat) :
    (getBranch ptr path).Free (releases maps) fun branch => OwnChain (Releasing maps).own branch.chain :=
  gives_getBranch (K := Releasing maps) ptr path

theorem free_rise (ptr : Nat) (left chain : List Indirect) : (rise ptr left chain).Free (releases maps) fun r =>
    OwnChain (Releasing maps).own r.1 ∧ OwnChain (Releasing maps).own r.2 :=
  gives_rise (K := Releasing maps) ptr chain (own_chain left) (own_chain chain)

variable {disk : Disk Errno} {allowed : FsFault → Prop} {w : World Fs} {kept pinned : List Nat} {view : Nat → Bytes}

theorem Area.Leads.off {area : Area} {data : Nat → Nat} {path : List Nat}
    (leads : area.Leads w.device pinned view data path) (stored : Stored disk w kept pinned view) :
    area.Off w.state.zoneMaps := by
  cases leads with
  | inode => exact trivial
  | block member nonempty number nonzero => exact stored.notMem_zoneMaps (by simp [member])

/-- `free_block` frees a zone with one store to the bitmap. -/
theorem freeBlock_releases (layout : w.state.geometry.Layout) (stored : Stored disk w kept pinned view) {z : Nat}
    (zone : w.state.geometry.IsZone z) : Spends (releases w.state.zoneMaps) disk allowed (freeBlock z)
      (fun _ n w' => n = 1 ∧ ∃ view', Works disk w w' kept pinned view' ∧ w.state.geometry.Frees view view' {z} ∧
        w.state.geometry.Touches view view' 0) w := by
  have first : w.state.super.firstdatazone ≤ z := zone.first
  have last : z < w.state.super.nzones := zone.last
  have bit : (z - w.state.super.firstdatazone + 1) / w.state.bitsPerBlock < w.state.super.zmapBlocks :=
    zone.bit
  have inMaps : w.state.zmap ((z - w.state.super.firstdatazone + 1) / w.state.bitsPerBlock) ∈ w.state.zoneMaps :=
    List.mem_map.mpr ⟨_, List.mem_range.mpr bit, rfl⟩
  refine spends_first free_get (meets_get.mpr ?_)
  simp only [if_neg (not_or.mpr ⟨Nat.not_lt.mpr first, Nat.not_le.mpr last⟩), if_neg (Nat.not_le.mpr bit)]
  refine spends_first free_load ((meets_load (stored.load_zmap bit)).mpr ?_)
  refine spends_bind.mpr ?_
  exact ⟨if_pos inMaps, _, works_store_zmap stored bit _, Geometry.frees_clearBit layout zone,
    Geometry.touches_zmap bit _⟩

end Minix

end MPStuBS
