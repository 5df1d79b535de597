import MPStuBS.FaultLogic
import MPStuBS.ProgramParts
import MPStuBS.TreeReading
import MPStuBS.CacheIntegrity

/-! Whether the entries that the block tree uses are inside of the blocks and of the inode. -/
namespace MPStuBS

open Prog FsM

/-- With `n` entries in an indirect block, no index is out of range, whatever the device answers. -/
def Avoids {α : Type} (n : Nat) (p : FsM α) (result : α → Prop) : Prop := ∀ s, s.indirCount = n →
  p.Safe (· ≠ FsFault.outOfBounds) (fun a s' => s'.indirCount = n ∧ result a) s

namespace Avoids

variable {α β : Type} {n b : Nat} {result : α → Prop}

theorem pure {a : α} (holds : result a) : Avoids n (Pure.pure a) result := fun _ count => ⟨count, holds⟩

theorem bind {p : FsM β} {f : β → FsM α} {first : β → Prop} (h : Avoids n p first)
    (next : ∀ a, first a → Avoids n (f a) result) : Avoids n (p >>= f) result := fun s count =>
  safe_bind.mpr ((h s count).mono fun a s' got => next a got.2 s' got.1)

theorem ite {c : Prop} [Decidable c] {p q : FsM α} (fst : c → Avoids n p result) (snd : ¬ c → Avoids n q result) :
    Avoids n (if c then p else q) result := by
  split
  · rename_i holds
    exact fst holds
  · rename_i not
    exact snd not

theorem fault {f : FsFault} (other : f ≠ .outOfBounds) : Avoids n (FsM.fault f : FsM α) result := fun _ _ => other

theorem get : Avoids n FsM.get (fun s => s.indirCount = n) := fun _ count => ⟨count, count⟩

theorem fix {m : Nat} : Avoids n (FsM.fix m) fun _ => True := fun _ count _ => ⟨count, trivial⟩

theorem load : Avoids n (FsM.load b) fun _ => True := by
  intro s count r
  cases r with
  | none => exact fun eq => by cases eq
  | some bytes => exact ⟨count, trivial⟩

theorem store {bytes : Bytes} : Avoids n (FsM.store b bytes) fun _ => True := fun _ count => ⟨count, trivial⟩

theorem markDirty : Avoids n (FsM.markDirty b) fun _ => True := fun _ count => ⟨count, trivial⟩

theorem unfix : Avoids n (FsM.unfix b) fun _ => True := fun _ count => ⟨count, trivial⟩

theorem forget : Avoids n (FsM.forget b) fun _ => True := fun _ count => ⟨count, trivial⟩

theorem inode {ptr : Nat} : Avoids n (FsM.inode ptr) fun _ => True :=
  get.bind fun _ _ => .ite (fun _ => fault (by decide)) fun _ => .pure trivial

theorem setInode {ptr : Nat} {f : Inode → Inode} : Avoids n (FsM.setInode ptr f) fun _ => True :=
  get.bind fun _ count => .ite (fun _ => fault (by decide)) fun _ _ _ => ⟨count, trivial⟩

end Avoids

namespace Minix

variable {n ptr : Nat}

theorem avoids_newBlockFrom (k : Nat) : ∀ i, Avoids n (newBlockFrom k i) fun _ => True := by
  induction k with
  | zero => exact fun i => .pure trivial
  | succ k ih =>
    exact fun i => Avoids.get.bind fun _ _ => Avoids.load.bind fun _ _ => .ite
      (fun _ => Avoids.store.bind fun _ _ => Avoids.markDirty.bind fun _ _ =>
        .ite (fun _ => .pure trivial) fun _ => .pure trivial)
      fun _ => ih (i + 1)

theorem avoids_newBlock : Avoids n newBlock fun _ => True :=
  Avoids.get.bind fun _ _ => avoids_newBlockFrom _ _

theorem avoids_freeBlock (z : Nat) : Avoids n (freeBlock z) fun _ => True :=
  Avoids.get.bind fun _ _ => .ite (fun _ => .pure trivial) fun _ => .ite (fun _ => .pure trivial) fun _ =>
    Avoids.load.bind fun _ _ => Avoids.store.bind fun _ _ => Avoids.markDirty

/-- The entry is one of the inode's zones or one of an indirect block. -/
def Indirect.Inside (n : Nat) (p : Indirect) : Prop :=
  match p.area with
  | .inode => p.offset < 10
  | .block _ => p.offset < n

theorem avoids_readEntry {p : Indirect} (inside : p.Inside n) :
    Avoids n (readEntry ptr p.area p.offset) fun _ => True := by
  obtain ⟨area, offset, key⟩ := p
  cases area with
  | inode =>
    have bound : offset < 10 := inside
    exact Avoids.inode.bind fun _ _ => .ite (fun _ => .pure trivial) fun late =>
      absurd (Nat.lt_trans bound (by decide)) late
  | block handle =>
    exact Avoids.get.bind fun s count => Avoids.load.bind fun _ _ => .ite (fun _ => .pure trivial) fun late =>
      absurd (count ▸ inside) late

theorem avoids_writeEntry {p : Indirect} (inside : p.Inside n) (value : Nat) :
    Avoids n (writeEntry ptr p.area p.offset value) fun _ => True := by
  obtain ⟨area, offset, key⟩ := p
  cases area with
  | inode =>
    have bound : offset < 10 := inside
    exact .ite (fun _ => Avoids.setInode) fun late =>
      absurd (Nat.lt_trans bound (by decide)) late
  | block handle =>
    exact Avoids.get.bind fun s count => Avoids.load.bind fun _ _ => .ite (fun _ => Avoids.store) fun late =>
      absurd (count ▸ inside) late

theorem avoids_unfix (p : Indirect) : Avoids n p.unfix fun _ => True := by
  unfold Indirect.unfix
  split
  · exact .pure trivial
  · exact Avoids.unfix

theorem avoids_forget (p : Indirect) : Avoids n p.forget fun _ => True := by
  unfold Indirect.forget
  split
  · exact .pure trivial
  · exact Avoids.forget

theorem avoids_markDirty (p : Indirect) : Avoids n p.markDirty fun _ => True := by
  unfold Indirect.markDirty
  split
  · exact .pure trivial
  · exact Avoids.markDirty

theorem avoids_unfixAll (chain : List Indirect) : Avoids n (unfixAll chain) fun _ => True := by
  induction chain with
  | nil => exact .pure trivial
  | cons p rest ih =>
    exact (avoids_unfix p).bind fun _ _ => ih

theorem avoids_forgetAll (chain : List Indirect) : Avoids n (forgetAll chain) fun _ => True := by
  induction chain with
  | nil => exact .pure trivial
  | cons p rest ih =>
    exact (avoids_forget p).bind fun _ _ => ih

theorem avoids_verifyChain {chain : List Indirect} (inside : ∀ p ∈ chain, p.Inside n) :
    Avoids n (verifyChain ptr chain) fun _ => True := by
  induction chain with
  | nil => exact .pure trivial
  | cons p rest ih =>
    exact (avoids_readEntry (inside p (.head _))).bind fun _ _ =>
      .ite (fun _ => ih fun q member => inside q (.tail _ member)) fun _ => .pure trivial

/-- The entries of the branch and the offsets that remain are in range. -/
def Branch.Inside (n : Nat) : Branch → Prop
  | .found chain => ∀ p ∈ chain, p.Inside n
  | .missing chain rest | .failed chain rest _ => (∀ p ∈ chain, p.Inside n) ∧ ∀ o ∈ rest, o < n

theorem avoids_followBranch (path : List Nat) (small : ∀ o ∈ path, o < n) : ∀ {p : Indirect} {chain : List Indirect},
    (∀ q ∈ p :: chain, q.Inside n) → Avoids n (followBranch ptr p chain path) (Branch.Inside n) := by
  induction path with
  | nil =>
    intro p chain inside
    refine .pure ?_
    split
    · exact ⟨inside, by simp⟩
    · exact inside
  | cons offset rest ih =>
    intro p chain inside
    refine .ite (fun _ => .pure ⟨inside, small⟩) fun _ => Avoids.fix.bind fun r _ => ?_
    cases r with
    | error e => exact .pure ⟨inside, small⟩
    | ok handle =>
      have here : Indirect.Inside n ⟨.block handle, offset, 0⟩ := small offset (.head _)
      refine (avoids_verifyChain inside).bind fun valid _ => .ite (fun _ => ?_)
        fun _ => Avoids.unfix.bind fun _ _ => .pure ⟨inside, small⟩
      refine (avoids_readEntry here).bind fun key _ => ih (fun o member => small o (.tail _ member)) fun q member => ?_
      rcases List.mem_cons.mp member with rfl | old
      · exact here
      · exact inside q old

theorem avoids_getBranch {offset : Nat} {rest : List Nat} (first : offset < 10) (small : ∀ o ∈ rest, o < n) :
    Avoids n (getBranch ptr (offset :: rest)) (Branch.Inside n) := by
  have here : Indirect.Inside n ⟨.inode, offset, 0⟩ := first
  refine (avoids_readEntry here).bind fun key _ => avoids_followBranch rest small fun q member => ?_
  obtain rfl := List.mem_singleton.mp member
  exact here

theorem avoids_allocRest (rest : List Nat) (small : ∀ o ∈ rest, o < n) : ∀ parent,
    Avoids n (allocRest ptr parent rest) (fun r => ∀ p ∈ r.1, p.Inside n) := by
  induction rest with
  | nil => exact fun parent => .pure (by simp)
  | cons offset rest ih =>
    intro parent
    refine avoids_newBlock.bind fun nr _ => .ite (fun _ => .pure (by simp)) fun _ => Avoids.get.bind fun _ _ =>
      Avoids.fix.bind fun r _ => ?_
    cases r with
    | error e => exact .fault (by decide)
    | ok handle =>
      have here : Indirect.Inside n ⟨.block handle, offset, nr⟩ := small offset (.head _)
      refine Avoids.load.bind fun _ _ => Avoids.store.bind fun _ _ => Avoids.markDirty.bind fun _ _ =>
        (avoids_writeEntry here nr).bind fun _ _ =>
          (ih (fun o member => small o (.tail _ member)) nr).bind fun r inside => .pure fun q member => ?_
      rcases List.mem_cons.mp member with rfl | old
      · exact here
      · exact inside q old

theorem avoids_freeKeys (chain : List Indirect) : Avoids n (freeKeys chain) fun _ => True := by
  induction chain with
  | nil => exact .pure trivial
  | cons p rest ih => exact (avoids_freeBlock p.key).bind fun _ _ => ih

/-- The branch that was allocated begins at the place of `p`. -/
theorem avoids_allocBranch {p : Indirect} (here : p.Inside n) (rest : List Nat) (small : ∀ o ∈ rest, o < n) :
    Avoids n (allocBranch ptr p rest) (fun r => ∀ chain, r = .ok chain → chain ≠ [] ∧ ∀ q ∈ chain, q.Inside n) := by
  refine avoids_newBlock.bind fun parent _ => .ite (fun _ => .pure (by simp)) fun _ =>
    (avoids_allocRest rest small parent).bind fun r inside => .ite (fun _ => .pure ?_) fun _ =>
      (avoids_forgetAll _).bind fun _ _ => (avoids_freeKeys _).bind fun _ _ => .pure (by simp)
  rintro chain ⟨rfl⟩
  refine ⟨List.cons_ne_nil _ _, fun q member => ?_⟩
  rcases List.mem_cons.mp member with rfl | old
  · exact here
  · exact inside q old

theorem avoids_spliceBranch {above : List Indirect} {p : Indirect} {more : List Indirect} (here : p.Inside n)
    (inside : ∀ q ∈ above, q.Inside n) : Avoids n (spliceBranch ptr above p more) fun _ => True := by
  refine (avoids_verifyChain inside).bind fun _ _ => (avoids_readEntry here).bind fun _ _ => .ite (fun _ => ?_)
    fun _ => (avoids_forgetAll more).bind fun _ _ => .pure trivial
  exact (avoids_writeEntry here p.key).bind fun _ _ => (avoids_markDirty p).bind fun _ _ =>
    Avoids.setInode.bind fun _ _ => .pure trivial

theorem avoids_finish (chain : List Indirect) : Avoids n (finish chain) fun _ => True := by
  refine (avoids_unfixAll chain).bind fun _ _ => ?_
  cases chain with
  | nil => exact .pure trivial
  | cons p rest => exact .pure trivial

theorem avoids_allocate {chain : List Indirect} {rest : List Nat} {again : FsM (Except Errno Nat)}
    (inside : ∀ p ∈ chain, p.Inside n) (small : ∀ o ∈ rest, o < n) (next : Avoids n again fun _ => True) :
    Avoids n (allocate ptr chain rest again) fun _ => True := by
  cases chain with
  | nil => exact .pure trivial
  | cons p above =>
    refine (avoids_allocBranch (inside p (.head _)) rest small).bind fun r allocated => ?_
    cases r with
    | error e => exact (avoids_unfixAll _).bind fun _ _ => .pure trivial
    | ok branch =>
      obtain ⟨some, inside'⟩ := allocated branch rfl
      cases branch with
      | nil => exact absurd rfl some
      | cons q more =>
        exact (avoids_spliceBranch (inside' q (.head _)) fun q member => inside q (.tail _ member)).bind fun _ _ =>
          .ite (fun _ => avoids_finish _) fun _ => (avoids_unfixAll _).bind fun _ _ => next

theorem avoids_getBlockLoop {offset : Nat} {rest : List Nat} {create : Bool} (first : offset < 10)
    (small : ∀ o ∈ rest, o < n) (fuel : Nat) :
    Avoids n (getBlockLoop ptr (offset :: rest) create fuel) fun _ => True := by
  induction fuel with
  | zero => exact .fault (by decide)
  | succ fuel ih =>
    refine (avoids_getBranch first small).bind fun b inside => ?_
    cases b with
    | found chain => exact avoids_finish chain
    | missing chain rest' =>
      exact .ite (fun _ => avoids_allocate inside.1 inside.2 ih) fun _ =>
        (avoids_unfixAll _).bind fun _ _ => .pure trivial
    | failed chain rest' e =>
      exact .ite (fun _ => (avoids_unfixAll _).bind fun _ _ => .pure trivial) fun _ =>
        .ite (fun _ => (avoids_unfixAll _).bind fun _ _ => ih) fun _ => avoids_allocate inside.1 inside.2 ih

/-- The block has a path in the tree: it is not as far away as the triple indirect block reaches, or
its index in that block is cut to one that is in range. -/
def Addressed (n block : Nat) : Prop :=
  block < 7 + n + n * n ∨ (block - (7 + n + n * n)) / (n * n) % 4294967296 < n

instance (n block : Nat) : Decidable (Addressed n block) := by
  unfold Addressed
  infer_instance

theorem toInt_lt_iff {a : Nat} (small : n ≤ 2147483648) : toInt a < n ↔ a % 4294967296 < n := by
  simp only [toInt, u64, Int.bmod]
  split
  · omega
  · omega

/-- The path behind the double indirect block. -/
theorem offsets_far {block : Nat} (far : ¬ block < 7 + n + n * n) :
    offsets n block = [9, toInt ((block - (7 + n + n * n)) / (n * n)),
      toInt ((block - (7 + n + n * n)) / n % n), toInt ((block - (7 + n + n * n)) % n)] := by
  have rest : block - 7 - n - n * n = block - (7 + n + n * n) := by omega
  simp only [offsets, blockToPath]
  rw [if_neg (by omega), if_neg (by omega), if_neg (by omega), rest, Nat.div_div_eq_div_mul]
  simp only [List.map_cons, List.map_nil, List.cons.injEq, and_true]
  rfl

theorem offsets_of_addressed {block : Nat} (positive : 0 < n) (small : n ≤ 2147483648)
    (addressed : Addressed n block) :
    ∃ offset rest, offsets n block = offset :: rest ∧ offset < 10 ∧ ∀ o ∈ rest, o < n := by
  by_cases near : block < 7 + n + n * n
  · have bound : block < addressable n := Nat.lt_of_lt_of_le near (Nat.le_add_right _ _)
    rw [offsets_eq positive small bound]
    exact blockToPath_bounds positive bound
  · have wide := Or.resolve_left addressed near
    refine ⟨9, _, offsets_far near, Nat.lt_succ_self 9, ?_⟩
    intro o member
    rcases List.mem_cons.mp member with here | member
    · rwa [here, toInt_lt_iff small]
    rcases List.mem_cons.mp member with here | member
    · rw [here, toInt_lt_iff small]
      exact Nat.lt_of_le_of_lt (Nat.mod_le _ _) (Nat.mod_lt _ positive)
    · rw [List.mem_singleton.mp member, toInt_lt_iff small]
      exact Nat.lt_of_le_of_lt (Nat.mod_le _ _) (Nat.mod_lt _ positive)

theorem offsets_beyond {block : Nat} (small : n ≤ 2147483648) (beyond : ¬ Addressed n block) :
    ∃ o rest, offsets n block = 9 :: o :: rest ∧ n ≤ o := by
  obtain ⟨far, wide⟩ := not_or.mp beyond
  refine ⟨_, _, offsets_far far, ?_⟩
  exact Nat.not_lt.mp fun inside => wide ((toInt_lt_iff small).mp inside)

/-- Only the inode's zones are indexed first. -/
theorem offsets_head (n block : Nat) : ∃ offset rest, offsets n block = offset :: rest ∧ offset < 10 := by
  obtain ⟨offset, rest, path, first⟩ := blockToPath_head n block
  refine ⟨offset, rest.map toInt, ?_, first⟩
  rw [offsets, path, List.map_cons, toInt_of_lt (by omega)]

/-- `get_block` of a block that has a path uses no entry that is out of range. -/
theorem avoids_getBlock {block : Nat} {create : Bool} (positive : 0 < n) (small : n ≤ 2147483648)
    (addressed : Addressed n block) : Avoids n (getBlock ptr block create) fun _ => True := by
  refine Avoids.get.bind fun s count => ?_
  obtain ⟨offset, rest, path, first, inside⟩ := offsets_of_addressed positive small addressed
  rw [count, path]
  exact avoids_getBlockLoop first inside _

section Beyond

variable {s : Fs} {p : Indirect} {o : Nat} {rest : List Nat}

/-- An entry that is out of range is not read. -/
theorem readEntry_beyond {handle : Nat} {post : Nat → Fs → Prop} (count : s.indirCount ≤ o) :
    (readEntry ptr (.block handle) o).Always post s := by
  refine always_bind.mpr (fun bytes => ?_)
  cases bytes with
  | none => exact True.intro
  | some bytes =>
    change Always (if o < s.indirCount then _ else _) _ s
    rw [if_neg (Nat.not_lt.mpr count)]
    exact True.intro

theorem writeEntry_beyond {handle value : Nat} {post : Unit → Fs → Prop} (count : s.indirCount ≤ o) :
    (writeEntry ptr (.block handle) o value).Always post s := by
  refine always_bind.mpr (fun bytes => ?_)
  cases bytes with
  | none => exact True.intro
  | some bytes =>
    change Always (if o < s.indirCount then _ else _) _ s
    rw [if_neg (Nat.not_lt.mpr count)]
    exact True.intro

/-- The branch stops before the entry that is out of range. -/
def Stops (o : Nat) (rest : List Nat) : Branch → Prop
  | .found _ => False
  | .missing _ rest' | .failed _ rest' _ => rest' = o :: rest

theorem getBranch_stops {offset : Nat} (count : s.indirCount ≤ o) : (getBranch ptr (offset :: o :: rest)).Always
    (fun b s' => s' = s ∧ Stops o rest b) s := by
  refine always_bind.mpr (((has_readEntry ptr .inode offset).same s).mono ?_)
  rintro key s rfl
  unfold followBranch
  split
  · exact ⟨rfl, rfl⟩
  refine always_bind.mpr fun r => ?_
  cases r with
  | error e => exact ⟨rfl, rfl⟩
  | ok handle =>
    refine always_bind.mpr (((has_verifyChain ptr _).same s).mono ?_)
    rintro valid s rfl
    cases valid with
    | false => exact ⟨rfl, rfl⟩
    | true => exact always_bind.mpr (readEntry_beyond count)

theorem indirCount_quiet {s' : Fs} (quiet : s.Quiet s') : s'.indirCount = s.indirCount := by
  obtain ⟨inodes, rfl, -⟩ := quiet
  rfl

/-- Nothing is linked to an entry that is out of range. -/
theorem allocBranch_refuses {p : Indirect} (count : s.indirCount ≤ o) : (allocBranch ptr p (o :: rest)).Always
    (fun r _ => ∃ e, r = .error e) s := by
  refine always_bind.mpr ((quiet_newBlock s).mono fun parent s₁ quiet₁ => ?_)
  have count₁ := indirCount_quiet quiet₁
  split
  · exact ⟨_, rfl⟩
  refine always_bind.mpr (always_bind.mpr ((quiet_newBlock s₁).mono fun nr s₂ quiet₂ => ?_))
  have count₂ := (indirCount_quiet quiet₂).trans count₁
  split
  · -- the zones are used up before the entry is written
    refine always_bind.mpr (always_bind.mpr ((always_true (freeKeys _) s₂).mono fun _ s₃ _ => ?_))
    exact ⟨_, rfl⟩
  refine always_bind.mpr fun r => ?_
  cases r with
  | error e => exact True.intro
  | ok handle =>
    refine always_bind.mpr fun bytes => ?_
    cases bytes with
    | none => exact True.intro
    | some bytes =>
      exact always_bind.mpr (always_bind.mpr (always_bind.mpr (always_bind.mpr (writeEntry_beyond (count₂ ▸ count)))))

theorem allocate_refuses {again : FsM (Except Errno Nat)} (count : s.indirCount ≤ o) (chain : List Indirect) :
    (allocate ptr chain (o :: rest) again).Always (fun r _ => ∃ e, r = .error e) s := by
  cases chain with
  | nil => exact ⟨_, rfl⟩
  | cons p above =>
    refine always_bind.mpr ((allocBranch_refuses count).mono ?_)
    rintro _ s' ⟨e, rfl⟩
    exact always_bind.mpr ((always_true (unfixAll _) s').mono fun _ _ _ => ⟨e, rfl⟩)

theorem getBlockLoop_refuses {offset : Nat} (fuel : Nat) : ∀ {s : Fs}, s.indirCount ≤ o →
    (getBlockLoop ptr (offset :: o :: rest) true fuel).Always (fun r _ => ∃ e, r = .error e) s := by
  induction fuel with
  | zero => exact fun _ => True.intro
  | succ fuel ih =>
    intro s count
    refine always_bind.mpr ((getBranch_stops count).mono ?_)
    rintro b s ⟨rfl, stops⟩
    cases b with
    | found chain => exact stops.elim
    | missing chain rest' =>
      obtain rfl : rest' = o :: rest := stops
      exact allocate_refuses count chain
    | failed chain rest' e =>
      obtain rfl : rest' = o :: rest := stops
      simp only [Bool.true_eq_false, false_or]
      split
      · exact always_bind.mpr ((always_true (unfixAll _) s).mono fun _ _ _ => ⟨e, rfl⟩)
      split
      · refine always_bind.mpr (((has_unfixAll fun _ _ _ _ => trivial).same s).mono ?_)
        rintro _ s rfl
        exact ih count
      · exact allocate_refuses count chain

/-- A block that has no path is never allocated. -/
theorem getBlock_refuses {block : Nat} (small : s.indirCount ≤ 2147483648)
    (beyond : ¬ Addressed s.indirCount block) :
    (getBlock ptr block true).Always (fun r _ => ∃ e, r = .error e) s := by
  obtain ⟨o, rest, path, count⟩ := offsets_beyond small beyond
  refine always_bind.mpr ?_
  change (getBlockLoop ptr (offsets s.indirCount block) true _).Always _ s
  rw [path]
  exact getBlockLoop_refuses _ count

end Beyond

end Minix

end MPStuBS
