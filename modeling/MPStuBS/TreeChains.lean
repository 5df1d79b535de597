import MPStuBS.ZoneTree

/-! Chains of entries along a path of a block tree: how they are read, verified, written
and released, and `get_branch`. -/
namespace MPStuBS.Minix

open Prog FsM Device HeapTree

/-- The handles of a chain. -/
def handles (chain : List Indirect) : List Nat := chain.filterMap fun p =>
  match p.area with
  | .inode => none
  | .block h => some h

@[simp] theorem handles_nil : handles [] = [] := rfl

@[simp] theorem handles_inode (offset key : Nat) (chain : List Indirect) :
    handles (⟨.inode, offset, key⟩ :: chain) = handles chain := rfl

@[simp] theorem handles_block (h offset key : Nat) (chain : List Indirect) :
    handles (⟨.block h, offset, key⟩ :: chain) = h :: handles chain := rfl

theorem handles_append (chain rest : List Indirect) :
    handles (chain ++ rest) = handles chain ++ handles rest := List.filterMap_append

/-- A chain, last entry first, with the path that leads to its last entry. -/
inductive Chain (m : Nat) (d : Device) (view : Nat → Bytes) (data : Nat → Nat) :
    List Indirect → List Nat → Prop
  | root {o : Nat} (bound : o < 10) : Chain m d view data [⟨.inode, o, data o⟩] [o]
  | step {p : Indirect} {chain : List Indirect} {path : List Nat} {h k : Nat}
      (above : Chain m d view data (p :: chain) path) (nonzero : p.key ≠ 0) (number : d.number h = p.key)
      (inside : k < m) :
      Chain m d view data (⟨.block h, k, entry view p.key k⟩ :: p :: chain) (path ++ [k])

section Chains

variable {m : Nat} {d d' : Device} {view view' : Nat → Bytes} {data data' : Nat → Nat}
  {p : Indirect} {chain : List Indirect} {path : List Nat}

theorem zoneOf_snoc {k : Nat} (nonempty : path ≠ []) (nonzero : zoneOf view data path ≠ 0) :
    zoneOf view data (path ++ [k]) = entry view (zoneOf view data path) k := by
  obtain _ | ⟨o, rest⟩ := path
  · exact absurd rfl nonempty
  · rw [zoneOf_cons] at nonzero ⊢
    rw [List.cons_append, zoneOf_cons, follow_append]
    simp only [follow, if_neg nonzero]

theorem Chain.nonempty (is : Chain m d view data chain path) : path ≠ [] := by
  cases is <;> simp

theorem Chain.key (is : Chain m d view data (p :: chain) path) : p.key = zoneOf view data path := by
  generalize whole : p :: chain = all at is
  induction is generalizing p chain with
  | root bound =>
    obtain ⟨rfl, rfl⟩ := List.cons.inj whole
    rfl
  | step above nonzero number inside ih =>
    obtain ⟨rfl, rfl⟩ := List.cons.inj whole
    have key := ih rfl
    rw [zoneOf_snoc above.nonempty (key ▸ nonzero), ← key]

theorem Chain.length (is : Chain m d view data chain path) : path.length = chain.length := by
  induction is with
  | root bound => rfl
  | step above nonzero number inside ih => simpa using ih

theorem Chain.head_lt (is : Chain m d view data chain path) : ∃ o rest, path = o :: rest ∧ o < 10 ∧
    ∀ a ∈ rest, a < m := by
  induction is with
  | root bound => exact ⟨_, [], rfl, bound, by simp⟩
  | step above nonzero number inside ih =>
    obtain ⟨o, rest, rfl, bound, insideRest⟩ := ih
    refine ⟨o, rest ++ [_], rfl, bound, fun a inPath => ?_⟩
    rcases List.mem_append.mp inPath with old | new
    · exact insideRest a old
    · exact List.mem_singleton.mp new ▸ inside

/-- The numbers of the handles are the zones above the end of the path. -/
theorem Chain.number_mem (is : Chain m d view data chain path) {h : Nat} (member : h ∈ handles chain) :
    ∃ pre post, path = pre ++ post ∧ pre ≠ [] ∧ post ≠ [] ∧ d.number h = zoneOf view data pre ∧
      zoneOf view data pre ≠ 0 := by
  induction is with
  | root bound => simp at member
  | @step p chain path h' k above nonzero number inside ih =>
    rcases List.mem_cons.mp member with rfl | old
    · exact ⟨path, [k], rfl, above.nonempty, by simp, by rw [number, above.key], above.key ▸ nonzero⟩
    · obtain ⟨pre, post, rfl, some, rest, eq, nonzero⟩ := ih old
      exact ⟨pre, post ++ [k], by simp, some, by simp, eq, nonzero⟩

/-- A chain depends on its blocks alone. -/
theorem Chain.congr_view (is : Chain m d view data chain path)
    (same : ∀ h ∈ handles chain, view' (d.number h) = view (d.number h)) :
    Chain m d view' data chain path := by
  induction is with
  | root bound => exact .root bound
  | @step p chain path h k above nonzero number inside ih =>
    have eq : entry view p.key k = entry view' p.key k := by
      unfold entry
      rw [← number, same h (by simp)]
    rw [eq]
    exact .step (ih fun h member => same h (by simp [member])) nonzero number inside

theorem Chain.congr (is : Chain m d view data chain path)
    (numbers : ∀ h ∈ handles chain, d'.number h = d.number h) : Chain m d' view data chain path := by
  induction is with
  | root bound => exact .root bound
  | step above nonzero number inside ih =>
    exact .step (ih fun h member => numbers h (by simp [member])) nonzero
      ((numbers _ (by simp)).trans number) inside

end Chains

variable {disk : Disk Errno} {allowed : FsFault → Prop} {ptr : Nat} {w : World Fs}
  {kept pinned : List Nat} {view : Nat → Bytes}

section Entries

/-- An entry of a block that is held. -/
theorem readEntry_block {h offset : Nat} {post : Nat → World Fs → Prop}
    (stored : Stored disk w kept pinned view) (member : h ∈ kept ++ pinned)
    (inside : offset < w.state.indirCount) : Meets disk allowed (readEntry ptr (.block h) offset) post w ↔
      post (entry view (w.device.number h) offset) w := by
  simp only [readEntry, meets_bind, meets_get, meets_load (stored.load member), if_pos inside, meets_pure]
  rfl

theorem readEntry_inode {offset : Nat} {post : Nat → World Fs → Prop}
    (live : (w.state.inodes ptr).deleted = false) (inside : offset < 10) :
    Meets disk allowed (readEntry ptr .inode offset) post w ↔
      post ((w.state.inodes ptr).data offset) w := by
  simp only [readEntry, meets_bind, meets_inode live, if_pos (Nat.lt_trans inside (by omega : 10 < 16)),
    meets_pure]

variable {chain : List Indirect} {p : Indirect} {path : List Nat}

theorem Chain.read (is : Chain w.state.indirCount w.device view (w.state.inodes ptr).data (p :: chain) path)
    (live : (w.state.inodes ptr).deleted = false) (stored : Stored disk w kept pinned view)
    (held : ∀ h ∈ handles (p :: chain), h ∈ kept ++ pinned) {post : Nat → World Fs → Prop} :
    Meets disk allowed (readEntry ptr p.area p.offset) post w ↔ post p.key w := by
  cases is with
  | root bound => exact readEntry_inode live bound
  | step above nonzero number inside =>
    rw [readEntry_block stored (held _ (by simp)) inside, number]

theorem verifyChain_holds (is : Chain w.state.indirCount w.device view (w.state.inodes ptr).data chain path)
    (live : (w.state.inodes ptr).deleted = false) (stored : Stored disk w kept pinned view)
    (held : ∀ h ∈ handles chain, h ∈ kept ++ pinned) {post : Bool → World Fs → Prop} :
    Meets disk allowed (verifyChain ptr chain) post w ↔ post true w := by
  generalize data : (w.state.inodes ptr).data = data at is
  induction is with
  | root bound =>
    simp only [verifyChain, meets_bind, readEntry_inode live bound, data, if_true]
    rfl
  | step above nonzero number inside ih =>
    simp only [verifyChain, meets_bind]
    rw [readEntry_block stored (held _ (by simp)) inside, number]
    simp only [if_true]
    exact ih fun h member => held h (by
      cases above with
      | root => simp at member
      | step => simpa using Or.inr member)

end Entries

/-- Releasing the blocks of a chain. -/
theorem unfixAll_stored (chain : List Indirect) : ∀ {w : World Fs},
    Stored disk w (handles chain ++ kept) pinned view →
    Meets disk allowed (unfixAll chain) (fun _ w' => Works disk w w' kept pinned view) w := by
  induction chain with
  | nil =>
    intro w stored
    exact ⟨rfl, .refl _, stored⟩
  | cons p chain ih =>
    intro w stored
    obtain ⟨area, offset, key⟩ := p
    simp only [unfixAll, Indirect.unfix, meets_bind]
    cases area with
    | inode => exact ih stored
    | block h =>
      rw [meets_unfix]
      have released := works_unfix stored
      exact (ih released.stored).mono fun _ w' after => released.trans after

/-- What is known of the tree of an inode. -/
structure Tree (g : Geometry) (view : Nat → Bytes) (data : Nat → Nat) : Prop where
  nodup : (zones g.indirCount view data).Nodup
  zone : ∀ z ∈ zones g.indirCount view data, g.IsZone z
  marked : ∀ z ∈ zones g.indirCount view data, g.marked view z = true

/-- What the device answers when the block that a path leads to is fixed after those above it. -/
def answer (disk : Disk Errno) (clock : Nat) (view : Nat → Bytes) (data : Nat → Nat) (path : List Nat) : Option Errno :=
  disk.fails (clock + (path.length - 1)) (zoneOf view data path)

/-- The blocks above the end of the path can be fixed one after another. -/
def Readable (disk : Disk Errno) (clock : Nat) (view : Nat → Bytes) (data : Nat → Nat) (path : List Nat) : Prop :=
  ∀ pre post, path = pre ++ post → pre ≠ [] → post ≠ [] → answer disk clock view data pre = none

theorem Readable.snoc {disk : Disk Errno} {clock k : Nat} {view : Nat → Bytes} {data : Nat → Nat} {path : List Nat}
    (readable : Readable disk clock view data path) (fixed : answer disk clock view data path = none) :
    Readable disk clock view data (path ++ [k]) := by
  intro pre post whole some more
  obtain rfl | ⟨post, k', rfl⟩ := List.eq_nil_or_concat post
  · exact absurd rfl more
  · rw [List.concat_eq_append, ← List.append_assoc] at whole
    obtain ⟨rfl, -⟩ := List.append_inj' whole rfl
    by_cases last : post = []
    · rwa [last, List.append_nil] at fixed
    · exact readable pre post rfl some last

theorem readable_root {disk : Disk Errno} {clock o : Nat} {view : Nat → Bytes} {data : Nat → Nat} : Readable disk clock view data [o] := by
  intro pre post whole some more
  have lengths := congrArg List.length whole
  have one := List.length_pos_iff.mpr some
  have two := List.length_pos_iff.mpr more
  simp only [List.length_singleton, List.length_append] at lengths
  omega

/-- What `get_branch` finds along a path from a time on. -/
def Branch.Along (disk : Disk Errno) (clock m : Nat) (d : Device) (view : Nat → Bytes) (data : Nat → Nat)
    (path : List Nat) : Branch → Prop
  | .found chain => Chain m d view data chain path ∧ zoneOf view data path ≠ 0 ∧ Readable disk clock view data path
  | .missing chain rest => ∃ pre, path = pre ++ rest ∧ Chain m d view data chain pre ∧
      zoneOf view data pre = 0 ∧ Readable disk clock view data pre
  | .failed chain rest e => ∃ pre, path = pre ++ rest ∧ Chain m d view data chain pre ∧
      zoneOf view data pre ≠ 0 ∧ rest ≠ [] ∧ Readable disk clock view data pre ∧
        answer disk clock view data pre = some e

theorem IsPath.upper {m : Nat} {pre rest : List Nat} (isPath : IsPath m (pre ++ rest))
    (nonempty : pre ≠ []) : IsPath m pre := by
  obtain _ | ⟨o, pre⟩ := pre
  · exact absurd rfl nonempty
  · have bound : (pre ++ rest).length ≤ o - 6 := isPath.2.1
    simp only [List.length_append] at bound
    exact ⟨isPath.1, by omega, fun a inPath => isPath.2.2 a (by simp [inPath])⟩

theorem IsPath.level_pos {m : Nat} {pre rest : List Nat} (isPath : IsPath m (pre ++ rest))
    (nonempty : pre ≠ []) (more : rest ≠ []) : 0 < level pre := by
  obtain _ | ⟨o, pre⟩ := pre
  · exact absurd rfl nonempty
  · have bound : (pre ++ rest).length ≤ o - 6 := isPath.2.1
    have some := List.length_pos_iff.mpr more
    simp only [List.length_append] at bound
    rw [level_cons]
    omega

section Branches

variable {data : Nat → Nat}

/-- The next block of a chain is not held yet. -/
theorem Chain.fresh {g : Geometry} {d : Device} {chain : List Indirect} {pre rest : List Nat}
    (tree : Tree g view data) (is : Chain g.indirCount d view data chain pre)
    (isPath : IsPath g.indirCount (pre ++ rest)) (nonzero : zoneOf view data pre ≠ 0) :
    zoneOf view data pre ∉ (handles chain).map d.number := by
  intro member
  obtain ⟨h, inChain, same⟩ := List.mem_map.mp member
  obtain ⟨above, below, rfl, some, more, number, _⟩ := is.number_mem inChain
  rw [number] at same
  have isPre := isPath.upper is.nonempty
  have eq := zoneOf_inj tree.nodup isPre (isPre.upper some) nonzero same.symm
  have lengths := congrArg List.length eq
  have positive := List.length_pos_iff.mpr more
  simp only [List.length_append] at lengths
  omega

theorem followBranch_along {clock : Nat} (rest : List Nat) : ∀ {p : Indirect} {chain : List Indirect} {pre : List Nat}
    {w : World Fs}, w.device.clock = clock + (pre.length - 1) → Readable disk clock view (w.state.inodes ptr).data pre →
      (w.state.inodes ptr).deleted = false → w.state.geometry.Layout →
      Tree w.state.geometry view (w.state.inodes ptr).data → IsPath w.state.indirCount (pre ++ rest) →
      Chain w.state.indirCount w.device view (w.state.inodes ptr).data (p :: chain) pre →
      Stored disk w (handles (p :: chain)) [] view →
      Meets disk allowed (followBranch ptr p chain rest) (fun b w' =>
        Works disk w w' (handles b.chain) [] view ∧
        b.Along disk clock w.state.indirCount w'.device view (w.state.inodes ptr).data (pre ++ rest)) w := by
  induction rest with
  | nil =>
    intro p chain pre w now readable live layout tree isPath is stored
    simp only [followBranch]
    refine meets_pure.mpr ?_
    split
    · rename_i zero
      exact ⟨.refl stored, pre, rfl, is, is.key ▸ zero, readable⟩
    · rename_i nonzero
      rw [List.append_nil]
      exact ⟨.refl stored, is, is.key ▸ nonzero, readable⟩
  | cons k rest ih =>
    intro p chain pre w now readable live layout tree isPath is stored
    simp only [followBranch]
    split
    · rename_i zero
      exact meets_pure.mpr ⟨.refl stored, pre, rfl, is, is.key ▸ zero, readable⟩
    rename_i nonzero
    have keyEq : p.key = zoneOf view (w.state.inodes ptr).data pre := is.key
    have isPre := isPath.upper is.nonempty
    have zone := tree.zone _ (zoneOf_mem isPre (keyEq ▸ nonzero))
    have held := works_fix stored (n := p.key) (keyEq ▸ Nat.le_trans layout.table zone.first) (by
      rw [List.append_nil, keyEq]
      exact is.fresh tree isPath (keyEq ▸ nonzero))
    have kLt : k < w.state.indirCount := by
      obtain ⟨o, more, rfl, _, _⟩ := is.head_lt
      exact isPath.2.2 k (by simp)
    simp only [meets_bind]
    have answers : disk.fails w.device.clock p.key = answer disk clock view (w.state.inodes ptr).data pre := by
      rw [answer, now, keyEq]
    have nonempty := List.length_pos_iff.mpr is.nonempty
    refine meets_fix (fun fixed => ?_) (fun e failure => ?_)
    · have is' : Chain w.state.indirCount (w.device.hold p.key).tick view (w.state.inodes ptr).data
          (p :: chain) pre := is.congr fun h member =>
        number_hold_of_ne (Nat.ne_of_lt (stored.holds.shows.early (by simp [member])))
      simp only [meets_bind]
      rw [verifyChain_holds (w := ⟨w.state, (w.device.hold p.key).tick⟩) is' live held.stored
        fun h member => by simp [member]]
      simp only [if_true, meets_bind]
      rw [readEntry_block (w := ⟨w.state, (w.device.hold p.key).tick⟩) held.stored (by simp) kLt,
        number_hold]
      have next : Chain w.state.indirCount (w.device.hold p.key).tick view (w.state.inodes ptr).data
          (⟨.block w.device.next, k, entry view p.key k⟩ :: p :: chain) (pre ++ [k]) :=
        .step is' nonzero (number_hold _) kLt
      have whole : pre ++ [k] ++ rest = pre ++ k :: rest := by simp
      have later : (w.device.hold p.key).tick.clock = clock + ((pre ++ [k]).length - 1) := by
        change w.device.clock + 1 = _
        rw [now, List.length_append, List.length_singleton]
        omega
      have found := ih (w := ⟨w.state, (w.device.hold p.key).tick⟩) later (readable.snoc (answers ▸ fixed)) live layout tree
        (whole ▸ isPath) next held.stored
      rw [whole] at found
      refine found.mono ?_
      rintro b w' ⟨works, along⟩
      exact ⟨held.trans works, along⟩
    · have ticked := works_tick stored
      exact meets_pure.mpr ⟨ticked, pre, rfl, is.congr fun _ _ => rfl, keyEq ▸ nonzero, by simp, readable,
        answers ▸ failure⟩

/-- What `get_branch` finds in a block tree. -/
theorem getBranch_along {path : List Nat} (live : (w.state.inodes ptr).deleted = false)
    (layout : w.state.geometry.Layout) (tree : Tree w.state.geometry view (w.state.inodes ptr).data)
    (isPath : IsPath w.state.indirCount path) (stored : Stored disk w [] [] view) :
    Meets disk allowed (getBranch ptr path) (fun b w' => Works disk w w' (handles b.chain) [] view ∧
      b.Along disk w.device.clock w.state.indirCount w'.device view (w.state.inodes ptr).data path) w := by
  obtain _ | ⟨o, rest⟩ := path
  · exact isPath.elim
  simp only [getBranch, meets_bind, readEntry_inode live isPath.1]
  exact followBranch_along rest rfl readable_root live layout tree isPath (.root isPath.1) stored

end Branches

end MPStuBS.Minix
