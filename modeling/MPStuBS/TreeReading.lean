import MPStuBS.FsLogic
import MPStuBS.MinixTree

/-! The zones of a file as its inode and its indirect blocks give them, and `get_block`
as far as it does not allocate: it finds them and changes nothing. -/
namespace MPStuBS.Minix

open Prog FsM

/-- The zone at the end of a path below an entry, zero from the first zero entry on. -/
def zoneVia (contents : Nat → Bytes) (key : Nat) : List Nat → Nat
  | [] => key
  | offset :: rest =>
    if key = 0 then 0 else zoneVia contents ((contents key).u32 (4 * offset)) rest

/-- The zone at the end of a path from the inode. -/
def zoneOf (contents : Nat → Bytes) (data : Nat → Nat) : List Nat → Nat
  | [] => 0
  | offset :: rest => zoneVia contents (data offset) rest

/-- The blocks on a path below an entry. -/
def trailVia (contents : Nat → Bytes) (key : Nat) : List Nat → List Nat
  | [] => if key = 0 then [] else [key]
  | offset :: rest =>
    if key = 0 then [] else key :: trailVia contents ((contents key).u32 (4 * offset)) rest

def trailOf (contents : Nat → Bytes) (data : Nat → Nat) : List Nat → List Nat
  | [] => []
  | offset :: rest => trailVia contents (data offset) rest

/-- The number of blocks that a path can address. -/
def addressable (count : Nat) : Nat := 7 + count + count * count + count * count * count

theorem zoneVia_congr {contents contents' : Nat → Bytes} {path : List Nat} :
    ∀ {key : Nat}, (∀ n ∈ trailVia contents key path, contents' n = contents n) →
      zoneVia contents' key path = zoneVia contents key path := by
  induction path with
  | nil =>
    intro key _
    rfl
  | cons offset rest ih =>
    intro key same
    simp only [zoneVia, trailVia] at same ⊢
    split
    · rfl
    · rename_i nonzero
      simp only [if_neg nonzero, List.mem_cons, forall_eq_or_imp] at same
      rw [same.1]
      exact ih same.2

theorem zero_notMem_trailVia {contents : Nat → Bytes} {path : List Nat} :
    ∀ {key : Nat}, 0 ∉ trailVia contents key path := by
  induction path with
  | nil =>
    intro key
    simp only [trailVia]
    split
    · simp
    · rename_i nonzero
      simpa using Ne.symm nonzero
  | cons offset rest ih =>
    intro key
    simp only [trailVia]
    split
    · simp
    · rename_i nonzero
      simp only [List.mem_cons, not_or]
      exact ⟨Ne.symm nonzero, ih⟩

/-- The path of an addressable block stays inside the inode and the indirect blocks. -/
theorem blockToPath_bounds {count block : Nat} (positive : 0 < count)
    (bound : block < addressable count) :
    ∃ offset rest, blockToPath count block = offset :: rest ∧ offset < 10 ∧ ∀ a ∈ rest, a < count := by
  unfold blockToPath
  split
  · exact ⟨block, [], rfl, by omega, by simp⟩
  split
  · exact ⟨7, [block - 7], rfl, by omega, by simpa⟩
  split
  · rename_i small
    refine ⟨8, _, rfl, by omega, ?_⟩
    simp only [List.mem_cons, List.not_mem_nil, or_false, forall_eq_or_imp, forall_eq]
    exact ⟨Nat.div_lt_of_lt_mul small, Nat.mod_lt _ positive⟩
  · refine ⟨9, _, rfl, by omega, ?_⟩
    have deep : block - 7 - count - count * count < count * count * count := by
      unfold addressable at bound
      omega
    simp only [List.mem_cons, List.not_mem_nil, or_false, forall_eq_or_imp, forall_eq]
    refine ⟨?_, Nat.mod_lt _ positive, Nat.mod_lt _ positive⟩
    rw [Nat.div_div_eq_div_mul]
    exact Nat.div_lt_of_lt_mul deep

theorem blockToPath_head (count block : Nat) :
    ∃ offset rest, blockToPath count block = offset :: rest ∧ offset < 10 := by
  unfold blockToPath
  split
  · exact ⟨block, [], rfl, by omega⟩
  split
  · exact ⟨7, _, rfl, by omega⟩
  split
  · exact ⟨8, _, rfl, by omega⟩
  · exact ⟨9, _, rfl, by omega⟩

theorem toInt_of_lt {n : Nat} (small : n < 2147483648) : toInt n = n := by
  unfold toInt u64
  rw [Int.bmod_eq_of_le (by omega) (by omega)]
  omega

/-- The indices of an addressable block are stored as they are. -/
theorem offsets_eq {count block : Nat} (positive : 0 < count) (small : count ≤ 2147483648)
    (bound : block < addressable count) : offsets count block = blockToPath count block := by
  obtain ⟨offset, rest, path, first, inside⟩ := blockToPath_bounds positive bound
  unfold offsets
  rw [path]
  refine List.map_congr_left (f := toInt) (g := id) ?_ |>.trans (List.map_id _)
  intro a member
  rcases List.mem_cons.mp member with rfl | later
  · exact toInt_of_lt (by omega)
  · exact toInt_of_lt (Nat.lt_of_lt_of_le (inside a later) small)

/-- The entry still has its value; if it is in a block, then one that was fixed after the
device was `base`, and that has not been changed. -/
def Backed (disk : Disk Errno) (ptr : Nat) (base : Device) (w : World Fs) (p : Indirect) : Prop :=
  match p.area with
  | .inode => p.offset < 16 ∧ (w.state.inodes ptr).data p.offset = p.key
  | .block h => p.offset < w.state.indirCount ∧ base.next ≤ h ∧ h < w.device.next ∧
      (w.device.blocks h).dirty = false ∧
      ∃ bytes, w.device.load disk h = some bytes ∧ bytes.u32 (4 * p.offset) = p.key

variable {disk : Disk Errno} {allowed : FsFault → Prop} {ptr : Nat} {base : Device} {w : World Fs}

theorem Backed.extends {p : Indirect} (backed : Backed disk ptr base w p) {w' : World Fs}
    (state : w'.state = w.state) (device : w.device.Extends w'.device) :
    Backed disk ptr base w' p := by
  unfold Backed at backed ⊢
  cases area : p.area with
  | inode =>
    rw [area] at backed
    simpa [state] using backed
  | block h =>
    rw [area] at backed
    obtain ⟨inside, late, early, clean, bytes, loaded, value⟩ := backed
    refine ⟨state ▸ inside, late, Nat.lt_of_lt_of_le early device.next, ?_, bytes, ?_, value⟩
    · rw [device.blocks h early]
      exact clean
    · rw [device.load early]
      exact loaded

theorem readEntry_backed {p : Indirect} {post : Nat → World Fs → Prop}
    (live : (w.state.inodes ptr).deleted = false) (backed : Backed disk ptr base w p) :
    Meets disk allowed (readEntry ptr p.area p.offset) post w ↔ post p.key w := by
  unfold Backed at backed
  cases area : p.area with
  | inode =>
    rw [area] at backed
    simp only [readEntry, meets_bind, meets_inode live, if_pos backed.1, meets_pure, backed.2]
  | block h =>
    rw [area] at backed
    obtain ⟨inside, _, _, _, bytes, loaded, value⟩ := backed
    simp only [readEntry, meets_bind, meets_get, meets_load loaded, if_pos inside, meets_pure, value]

theorem verifyChain_backed {post : Bool → World Fs → Prop}
    (live : (w.state.inodes ptr).deleted = false) {chain : List Indirect}
    (backed : ∀ p ∈ chain, Backed disk ptr base w p) :
    Meets disk allowed (verifyChain ptr chain) post w ↔ post true w := by
  induction chain with
  | nil => rfl
  | cons p rest ih =>
    simp only [verifyChain, meets_bind, readEntry_backed live (backed p (by simp)), if_true]
    exact ih fun q inRest => backed q (by simp [inRest])

/-- What following a path below an entry with the given key finds. -/
def Branch.Finds (disk : Disk Errno) (contents : Nat → Bytes) (key : Nat) (path : List Nat) :
    Branch → Prop
  | .found chain => ∃ p above, chain = p :: above ∧ p.key = zoneVia contents key path
  | .missing _ _ => zoneVia contents key path = 0
  | .failed _ _ e => ∃ clock number, disk.fails clock number = some e

theorem followBranch_finds (path : List Nat) :
    ∀ {p : Indirect} {chain : List Indirect} {w : World Fs},
      (w.state.inodes ptr).deleted = false → (∀ a ∈ path, a < w.state.indirCount) →
      base.next ≤ w.device.next → (∀ q ∈ p :: chain, Backed disk ptr base w q) →
      Meets disk allowed (followBranch ptr p chain path)
        (fun b w' => w'.state = w.state ∧ w.device.Extends w'.device ∧
          (∀ q ∈ b.chain, Backed disk ptr base w' q) ∧
          b.Finds disk w.device.contents p.key path) w := by
  induction path with
  | nil =>
    intro p chain w live _ _ backed
    simp only [followBranch]
    refine meets_pure.mpr ?_
    split
    · rename_i zero
      exact ⟨rfl, .refl _, backed, zero⟩
    · exact ⟨rfl, .refl _, backed, p, chain, rfl, rfl⟩
  | cons offset rest ih =>
    intro p chain w live inside late backed
    simp only [followBranch]
    split
    · rename_i zero
      refine meets_pure.mpr ?_
      exact ⟨rfl, .refl _, backed, by simp [zero, zoneVia, Branch.Finds]⟩
    rename_i nonzero
    simp only [meets_bind]
    refine meets_fix (fun _ => ?_) (fun e failure => ?_)
    · set next : World Fs := { w with device := (w.device.hold p.key).tick } with nextDef
      have grown : w.device.Extends next.device := Device.extends_hold _ _
      have backed' : ∀ q ∈ p :: chain, Backed disk ptr base next q := fun q inChain =>
        (backed q inChain).extends rfl grown
      have loaded : next.device.load disk w.device.next = some (w.device.contents p.key) :=
        Device.load_hold _ _
      have room : offset < w.state.indirCount := inside offset (by simp)
      have key : Backed disk ptr base next
          ⟨.block w.device.next, offset, (w.device.contents p.key).u32 (4 * offset)⟩ :=
        ⟨room, late, Nat.lt_succ_self _, congrArg Block.dirty (Device.blocks_hold _ _), _, loaded, rfl⟩
      simp only [meets_bind]
      rw [verifyChain_backed (w := next) live backed']
      simp only [if_true, meets_bind]
      rw [readEntry_backed (w := next) (p := ⟨.block w.device.next, offset, _⟩) live key]
      refine (ih (w := next) live (fun a inRest => inside a (by simp [inRest]))
        (Nat.le_trans late grown.next) ?_).mono ?_
      · intro q inChain
        rcases List.mem_cons.mp inChain with rfl | inChain
        · exact key
        · exact backed' q inChain
      · rintro b w' ⟨state, device, chainBacked, finds⟩
        refine ⟨state, grown.trans device, chainBacked, ?_⟩
        simp only [Branch.Finds, zoneVia, if_neg nonzero]
        exact finds
    · refine meets_pure.mpr ⟨rfl, (Device.Extends.refl _).tick, ?_, w.device.clock, p.key, failure⟩
      intro q inChain
      exact (backed q inChain).extends rfl (Device.Extends.refl _).tick

/-- The block of the entry may be released without a trace. -/
def Released (base d : Device) (p : Indirect) : Prop :=
  match p.area with
  | .inode => True
  | .block h => base.next ≤ h ∧ (d.blocks h).dirty = false

theorem Backed.released {p : Indirect} (backed : Backed disk ptr base w p) :
    Released base w.device p := by
  unfold Backed at backed
  unfold Released
  cases area : p.area with
  | inode => trivial
  | block h =>
    rw [area] at backed
    exact ⟨backed.2.1, backed.2.2.2.1⟩

theorem Released.unfix {d : Device} {p : Indirect} (released : Released base d p) {h : Nat}
    (clean : (d.blocks h).dirty = false) : Released base (d.exec disk h .unfix) p := by
  have kept : d.sync disk h = d := by simp [Device.sync, clean]
  unfold Released at released ⊢
  cases area : p.area with
  | inode => trivial
  | block h' =>
    rw [area] at released
    refine ⟨released.1, ?_⟩
    simp only [Device.exec, kept]
    by_cases here : h' = h
    · subst here
      simpa using clean
    · rw [Device.setBlock_of_ne _ here]
      exact released.2

theorem unfixAll_released (chain : List Indirect) :
    ∀ {w : World Fs}, base.Extends w.device → (∀ p ∈ chain, Released base w.device p) →
      Meets disk allowed (unfixAll chain)
        (fun _ w' => w'.state = w.state ∧ base.Extends w'.device) w := by
  induction chain with
  | nil =>
    intro w device _
    exact ⟨rfl, device⟩
  | cons p rest ih =>
    intro w device released
    have fst := released p (by simp)
    unfold Released at fst
    simp only [unfixAll, Indirect.unfix, meets_bind]
    cases area : p.area with
    | inode => exact ih device fun q inRest => released q (by simp [inRest])
    | block h =>
      rw [area] at fst
      rw [meets_unfix]
      exact ih (w := ⟨w.state, w.device.exec disk h .unfix⟩) (device.unfix fst.1 fst.2)
        fun q inRest => (released q (by simp [inRest])).unfix fst.2

/-- What `get_block` returns when it does not allocate. -/
def Finds (disk : Disk Errno) (zone : Nat) : Except Errno Nat → Prop
  | .ok z => z = zone
  | .error e => ∃ clock number, disk.fails clock number = some e

theorem getBranch_finds {path : List Nat} (live : (w.state.inodes ptr).deleted = false)
    (start : ∀ offset ∈ path.head?, offset < 16) (inside : ∀ a ∈ path.tail, a < w.state.indirCount)
    (nonempty : path ≠ []) :
    Meets disk allowed (getBranch ptr path)
      (fun b w' => w'.state = w.state ∧ w.device.Extends w'.device ∧
        (∀ q ∈ b.chain, Backed disk ptr w.device w' q) ∧
        match b with
        | .found chain => ∃ p above, chain = p :: above ∧
            p.key = zoneOf w.device.contents (w.state.inodes ptr).data path
        | .missing _ _ => zoneOf w.device.contents (w.state.inodes ptr).data path = 0
        | .failed _ _ e => ∃ clock number, disk.fails clock number = some e) w := by
  cases path with
  | nil => exact absurd rfl nonempty
  | cons offset rest =>
    have room : offset < 16 := start offset (by simp)
    have backed : Backed disk ptr w.device w ⟨.inode, offset, (w.state.inodes ptr).data offset⟩ :=
      ⟨room, rfl⟩
    simp only [getBranch, meets_bind]
    rw [readEntry_backed (p := ⟨.inode, offset, _⟩) live backed]
    refine (followBranch_finds rest live inside (Nat.le_refl w.device.next)
      (by simpa using backed)).mono ?_
    rintro b w' ⟨state, device, chain, finds⟩
    refine ⟨state, device, chain, ?_⟩
    cases b <;> exact finds

/-- Without allocation `get_block` finds the zone of the block, zero for a hole. -/
theorem getBlock_finds {block : Nat} (live : (w.state.inodes ptr).deleted = false)
    (entries : 0 < w.state.indirCount) (small : w.state.indirCount ≤ 2147483648)
    (bound : block < addressable w.state.indirCount) :
    Meets disk allowed (getBlock ptr block false)
      (fun r w' => w'.state = w.state ∧ w.device.Extends w'.device ∧
        Finds disk (zoneOf w.device.contents (w.state.inodes ptr).data
          (blockToPath w.state.indirCount block)) r) w := by
  obtain ⟨offset, rest, path, start, inside⟩ := blockToPath_bounds entries bound
  simp only [getBlock, meets_bind, meets_get, getBlockLoop, offsets_eq entries small bound, path]
  refine (getBranch_finds live (by simpa using Nat.lt_trans start (by omega)) (by simpa using inside)
    (by simp)).mono ?_
  rintro b w' ⟨state, device, backed, finds⟩
  have released : ∀ p ∈ b.chain, Released w.device w'.device p := fun p inChain =>
    (backed p inChain).released
  cases b with
  | found chain =>
    obtain ⟨p, above, rfl, key⟩ := finds
    simp only [finish, meets_bind]
    refine (unfixAll_released _ device released).mono ?_
    rintro _ w'' ⟨state', device'⟩
    exact ⟨state'.trans state, device', key⟩
  | missing chain rest =>
    simp only [Bool.false_eq_true, if_false, meets_bind]
    refine (unfixAll_released _ device released).mono ?_
    rintro _ w'' ⟨state', device'⟩
    exact ⟨state'.trans state, device', finds.symm⟩
  | failed chain rest e =>
    simp only [true_or, if_true, meets_bind]
    refine (unfixAll_released _ device released).mono ?_
    rintro _ w'' ⟨state', device'⟩
    exact ⟨state'.trans state, device', finds⟩

end MPStuBS.Minix
