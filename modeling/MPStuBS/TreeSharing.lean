import MPStuBS.PathOrder
import MPStuBS.TreeFreeing
import Mathlib.Data.List.TakeWhile

/-! The part of a block tree that remains when a file is cut off at a block: `find_shared`. -/
namespace MPStuBS.Minix

open Prog FsM Device HeapTree

theorem digits_lt {m a b : Nat} (less : a < b) : a / m < b / m ∨ a / m = b / m ∧ a % m < b % m := by
  rcases Nat.lt_or_eq_of_le (Nat.div_le_div_right (c := m) (Nat.le_of_lt less)) with below | same
  · exact .inl below
  · refine .inr ⟨same, ?_⟩
    have whole := Nat.div_add_mod a m
    have whole' := Nat.div_add_mod b m
    rw [same] at whole
    omega

/-- The paths are in the order of the blocks. -/
theorem blockToPath_precedes {m a b : Nat} (less : a < b) : Precedes (blockToPath m a) (blockToPath m b) := by
  unfold blockToPath
  split
  · split
    · exact .inl less
    split
    · exact .inl (by omega)
    split <;> exact .inl (by omega)
  rw [if_neg (by omega : ¬ b < 7)]
  split
  · split
    · exact .inr ⟨rfl, .inl (by omega)⟩
    split <;> exact .inl (by omega)
  rw [if_neg (by omega : ¬ b - 7 < m)]
  split
  · split
    · refine .inr ⟨rfl, ?_⟩
      rcases digits_lt (m := m) (by omega : a - 7 - m < b - 7 - m) with high | ⟨same, low⟩
      · exact .inl high
      · exact .inr ⟨same, .inl low⟩
    · exact .inl (by omega)
  rw [if_neg (by omega : ¬ b - 7 - m < m * m)]
  refine .inr ⟨rfl, ?_⟩
  rcases digits_lt (m := m) (by omega : a - 7 - m - m * m < b - 7 - m - m * m) with high | ⟨same, low⟩
  · rcases digits_lt (m := m) high with higher | ⟨same, lower⟩
    · exact .inl higher
    · exact .inr ⟨same, .inl lower⟩
  · exact .inr ⟨by rw [same], .inr ⟨by rw [same], .inl low⟩⟩

theorem blockToPath_precedes_iff {m a b : Nat} : Precedes (blockToPath m a) (blockToPath m b) ↔ a < b := by
  refine ⟨fun before => ?_, blockToPath_precedes⟩
  rcases Nat.lt_trichotomy a b with less | rfl | greater
  · exact less
  · exact absurd before (not_precedes_self _)
  · exact absurd before (blockToPath_precedes greater).asymm

/-- The entries of a path, last one first, whatever was read there. -/
inductive Spine (m : Nat) (d : Device) (view : Nat → Bytes) (data : Nat → Nat) :
    List Indirect → List Nat → Prop
  | root {o key : Nat} (bound : o < 10) : Spine m d view data [⟨.inode, o, key⟩] [o]
  | step {p : Indirect} {chain : List Indirect} {path : List Nat} {h k key : Nat}
      (above : Spine m d view data (p :: chain) path) (nonzero : zoneOf view data path ≠ 0)
      (number : d.number h = zoneOf view data path) (inside : k < m) :
      Spine m d view data (⟨.block h, k, key⟩ :: p :: chain) (path ++ [k])

/-- What comes below the path and before the rest is not mapped. -/
def EmptyBefore (m : Nat) (view : Nat → Bytes) (data : Nat → Nat) (path rest : List Nat) : Prop :=
  ∀ q, IsPath m (path ++ q) → Precedes q rest → zoneOf view data (path ++ q) = 0

section Chains

variable {m : Nat} {d d' : Device} {view view' : Nat → Bytes} {data data' : Nat → Nat} {chain : List Indirect}
  {path : List Nat} {p : Indirect}

theorem Chain.spine (is : Chain m d view data chain path) : Spine m d view data chain path := by
  induction is with
  | root bound => exact .root bound
  | step above nonzero number inside ih =>
    have key := above.key
    exact .step ih (key ▸ nonzero) (number.trans key) inside

theorem Spine.length (is : Spine m d view data chain path) : path.length = chain.length := by
  induction is with
  | root bound => rfl
  | step above nonzero number inside ih => simpa using ih

theorem Spine.nonempty (is : Spine m d view data chain path) : path ≠ [] := by
  cases is <;> simp

/-- The chain stays in place while its blocks do. -/
theorem Spine.congr (is : Spine m d view data chain path)
    (same : ∀ pre, pre <+: path → pre ≠ path → pre ≠ [] → zoneOf view' data' pre = zoneOf view data pre)
    (numbers : ∀ h ∈ handles chain, d'.number h = d.number h) : Spine m d' view' data' chain path := by
  induction is with
  | root bound => exact .root bound
  | @step p chain path h k key above nonzero number inside ih =>
    have here := same path (List.prefix_append _ _) (fun eq => by simpa using congrArg List.length eq) above.nonempty
    refine .step (ih (fun pre below other some => ?_) fun h member => numbers h (by simp [member])) (here ▸ nonzero)
      ((numbers h (by simp)).trans (number.trans here.symm)) inside
    refine same pre (below.trans (List.prefix_append _ _)) (fun eq => ?_) some
    have shorter := below.length_le
    rw [eq, List.length_append, List.length_singleton] at shorter
    omega

theorem EmptyBefore.nil : EmptyBefore m view data path [] := fun _ _ before => absurd before not_precedes_nil_right

/-- One level up, when nothing comes before in the block. -/
theorem EmptyBefore.rise {pre rest : List Nat} {k : Nat} (empty : EmptyBefore m view data (pre ++ [k]) rest)
    (zeroes : ∀ j < k, zoneOf view data (pre ++ [j]) = 0) :
    EmptyBefore m view data pre (k :: rest) := by
  rintro q isPath before
  obtain _ | ⟨j, q⟩ := q
  · exact absurd before not_precedes_nil_left
  rcases before with less | ⟨rfl, before⟩
  · exact zoneOf_upper isPath (by simp) (by simp) (zeroes j less)
  · have here := empty q (by simpa using isPath) before
    simpa using here

end Chains

section Rising

variable {disk : Disk Errno} {allowed : FsFault → Prop} {ptr : Nat} {w : World Fs} {kept pinned : List Nat}
  {view : Nat → Bytes}

/-- An entry of the block that a chain ends in. -/
theorem Chain.readEntry {data : Nat → Nat} {p q : Indirect} {chain : List Indirect} {pre : List Nat} {k j : Nat}
    (is : Chain w.state.indirCount w.device view data (p :: q :: chain) (pre ++ [k])) (stored : Stored disk w kept pinned view)
    (held : ∀ h ∈ handles (p :: q :: chain), h ∈ kept ++ pinned) (inside : j < w.state.indirCount)
    {post : Nat → World Fs → Prop} :
    Meets disk allowed (readEntry ptr p.area j) post w ↔ post (zoneOf view data (pre ++ [j])) w := by
  generalize whole : pre ++ [k] = path at is
  cases is with
  | @step _ _ path' h k' above nonzero number inside' =>
    obtain ⟨rfl, -⟩ := List.append_inj' whole rfl
    have key := above.key
    rw [readEntry_block stored (held _ (by simp)) inside, number, zoneOf_snoc above.nonempty (key ▸ nonzero), key]

theorem allZeroes_tells {data : Nat → Nat} {p q : Indirect} {chain : List Indirect} {pre : List Nat} {k : Nat}
    (is : Chain w.state.indirCount w.device view data (p :: q :: chain) (pre ++ [k])) (stored : Stored disk w kept pinned view)
    (held : ∀ h ∈ handles (p :: q :: chain), h ∈ kept ++ pinned) (n : Nat) (inside : n ≤ w.state.indirCount) :
    Meets disk allowed (allZeroes ptr p.area n) (fun r w' => w' = w ∧
      (r = true ↔ ∀ j < n, zoneOf view data (pre ++ [j]) = 0)) w := by
  induction n with
  | zero => exact ⟨rfl, by simp⟩
  | succ n ih =>
    unfold allZeroes
    refine meets_bind.mpr ((is.readEntry stored held (by omega)).mpr ?_)
    split
    · rename_i zero
      refine (ih (by omega)).mono ?_
      rintro r w' ⟨rfl, all⟩
      refine ⟨rfl, all.trans ⟨fun zeroes j less => ?_, fun zeroes j less => zeroes j (by omega)⟩⟩
      rcases Nat.lt_succ_iff_lt_or_eq.mp less with below | rfl
      · exact zeroes j below
      · exact zero
    · rename_i nonzero
      exact ⟨rfl, by simpa using ⟨n, by omega, nonzero⟩⟩

/-- The blocks that are left are the last ones, and nothing comes before the path in them. -/
structure Rises (m : Nat) (d : Device) (view : Nat → Bytes) (data : Nat → Nat) (chain : List Indirect)
    (path rest : List Nat) (left shared : List Indirect) (P post : List Nat) : Prop where
  split : chain = left ++ shared
  chain : Chain m d view data shared P
  path : path = P ++ post
  empty : EmptyBefore m view data P (post ++ rest)

theorem rise_rises {data : Nat → Nat} (chain : List Indirect) : ∀ {left : List Indirect} {path rest : List Nat},
    Chain w.state.indirCount w.device view data chain path → Stored disk w kept pinned view →
    (∀ h ∈ handles chain, h ∈ kept ++ pinned) → EmptyBefore w.state.indirCount view data path rest →
    Meets disk allowed (rise ptr left chain) (fun r w' => w' = w ∧ ∃ popped P post, r.1 = left ++ popped ∧
      Rises w.state.indirCount w.device view data chain path rest popped r.2 P post) w := by
  induction chain with
  | nil =>
    intro left path rest is
    cases is
  | cons p chain ih =>
    intro left path rest is stored held empty
    have stays : ∃ popped P post, left = left ++ popped ∧
        Rises w.state.indirCount w.device view data (p :: chain) path rest popped (p :: chain) P post :=
      ⟨[], path, [], by simp, rfl, is, by simp, empty⟩
    cases is with
    | root bound => exact ⟨rfl, stays⟩
    | @step q chain pre h k above nonzero number inside =>
      have is := Chain.step above nonzero number inside
      unfold rise
      refine meets_bind.mpr ((allZeroes_tells is stored held k (Nat.le_of_lt inside)).mono ?_)
      rintro zeroes _ ⟨rfl, all⟩
      cases zeroes with
      | false => exact ⟨rfl, stays⟩
      | true =>
        refine (ih above stored (fun h member => held h (by simp [member])) (empty.rise (all.mp rfl))).mono ?_
        rintro r _ ⟨rfl, popped, P, post, left', rises⟩
        refine ⟨rfl, ⟨.block h, k, entry view q.key k⟩ :: popped, P, post ++ [k], ?_, ?_, rises.chain, ?_, ?_⟩
        · rw [left', List.append_assoc]
          rfl
        · rw [rises.split]
          rfl
        · rw [rises.path, List.append_assoc]
        · rw [List.append_assoc]
          exact rises.empty

end Rising

theorem dropZeroes_drops (o : Nat) (rest : List Nat) : ∃ r zeros, dropZeroes (o :: rest) = o :: r ∧
    rest = r ++ zeros ∧ (∀ z ∈ zeros, z = 0) ∧ ∀ pre k, r = pre ++ [k] → k ≠ 0 := by
  refine ⟨_, (rest.reverse.takeWhile (· == 0)).reverse, rfl, ?_, fun z member => ?_, fun pre k last => ?_⟩
  · rw [← List.reverse_append, List.takeWhile_append_dropWhile, List.reverse_reverse]
  · simpa using List.mem_takeWhile_imp (List.mem_reverse.mp member)
  · have head := congrArg List.reverse last
    rw [List.reverse_reverse, List.reverse_append, List.reverse_singleton] at head
    have first : (rest.reverse.dropWhile (· == 0)).head? = some k := by simp [head]
    have := List.head?_dropWhile_not (· == 0) rest.reverse
    simpa [first] using this

/-- More blocks may be changed. -/
theorem stored_pinAll {disk : Disk Errno} {w : World Fs} {view : Nat → Bytes} (hs : List Nat) :
    ∀ {kept pinned : List Nat}, Stored disk w (hs ++ kept) pinned view → Stored disk w kept (hs ++ pinned) view := by
  induction hs with
  | nil => exact fun stored => stored
  | cons h hs ih =>
    intro kept pinned stored
    exact (ih stored.pin).perm (.refl _) List.perm_middle

/-- The first entry of the chain can be written. -/
theorem Chain.leads {m : Nat} {d : Device} {view : Nat → Bytes} {data : Nat → Nat} {p : Indirect} {chain : List Indirect}
    {path pinned : List Nat} (is : Chain m d view data (p :: chain) path) (held : ∀ h ∈ handles (p :: chain), h ∈ pinned) :
    ∃ pre, path = pre ++ [p.offset] ∧ p.area.Leads d pinned view data pre := by
  cases is with
  | root bound => exact ⟨[], rfl, .inode⟩
  | step above nonzero number inside =>
    have key := above.key
    exact ⟨_, rfl, .block (held _ (by simp)) above.nonempty (number.trans key) (key ▸ nonzero)⟩

/-- The first block on a path that cannot be fixed. -/
structure Unread (disk : Disk Errno) (clock : Nat) (view : Nat → Bytes) (data : Nat → Nat) (path R : List Nat) : Prop where
  above : ∃ rest, path = R ++ rest ∧ rest ≠ []
  nonempty : R ≠ []
  mapped : zoneOf view data R ≠ 0
  readable : Readable disk clock view data R
  failed : answer disk clock view data R ≠ none

theorem not_unread_of_reliable {disk : Disk Errno} {clock : Nat} {view : Nat → Bytes} {data : Nat → Nat} {path R : List Nat}
    (reliable : Reliable disk) : ¬ Unread disk clock view data path R := fun unread => unread.failed (reliable _ _)

/-- A walk stops at the first block that cannot be fixed. -/
theorem Unread.eq {disk : Disk Errno} {clock m : Nat} {view : Nat → Bytes} {data : Nat → Nat} {R R' rest : List Nat}
    (unread : Unread disk clock view data (R ++ rest) R') (isPath : IsPath m (R ++ rest)) (nonempty : R ≠ [])
    (readable : Readable disk clock view data R)
    (stops : zoneOf view data R = 0 ∨ rest = [] ∨ answer disk clock view data R ≠ none) : R' = R := by
  obtain ⟨rest', whole, more⟩ := unread.above
  rcases List.append_eq_append_iff.mp whole with ⟨post, rfl, eq⟩ | ⟨post, rfl, -⟩
  · obtain _ | ⟨k, post⟩ := post
    · rw [List.append_nil]
    rcases stops with zero | rfl | failed
    · have isPath' : IsPath m (R ++ k :: post) := (whole ▸ isPath).upper (by simp)
      exact absurd (zoneOf_upper isPath' nonempty (List.prefix_append _ _) zero) unread.mapped
    · exact absurd eq (by simp)
    · exact absurd (unread.readable R _ rfl nonempty (by simp)) failed
  · obtain _ | ⟨k, post⟩ := post
    · rw [List.append_nil]
    · exact absurd (readable R' _ rfl unread.nonempty (by simp)) unread.failed

section Sharing

variable {disk : Disk Errno} {allowed : FsFault → Prop} {ptr : Nat} {w : World Fs} {view : Nat → Bytes}

/-- The chain ends before the path, which comes first of what is cut off. -/
structure EndsBefore (disk : Disk Errno) (m : Nat) (view : Nat → Bytes) (data : Nat → Nat) (Q : List Nat) (w : World Fs)
    (shared : List Indirect) (w' : World Fs) (pre : List Nat) (k : Nat) (zeros : List Nat) : Prop where
  path : Q = pre ++ k :: zeros
  nonempty : pre ≠ []
  positive : 0 < k
  zeros : ∀ z ∈ zeros, z = 0
  works : Works disk w w' [] (handles shared) view
  spine : Spine m w'.device view data shared (pre ++ [k - 1])
  read : ∀ R, ¬ Unread disk w.device.clock view data (dropZeroes Q) R

/-- The paths below the block that could not be fixed on the way to what is cut off. -/
def Broken (disk : Disk Errno) (clock : Nat) (view : Nat → Bytes) (data : Nat → Nat) (Q q : List Nat) : Prop :=
  ∃ R, Unread disk clock view data (dropZeroes Q) R ∧ R <+: q

/-- The chain ends at an entry that has been cut off, in which nothing comes before the path but
what could not be read. -/
structure EndsAt (disk : Disk Errno) (ptr m : Nat) (view : Nat → Bytes) (data : Nat → Nat) (Q : List Nat) (w : World Fs)
    (shared : List Indirect) (top : Nat) (w' : World Fs) (P : List Nat) (view₁ : Nat → Bytes) (data₁ : Nat → Nat) :
    Prop where
  path : P <+: Q
  edits : Edits disk ptr w w' [] (handles shared) view₁ data₁
  written : Written view data P 0 view₁ data₁
  top : top = zoneOf view data P
  spine : Spine m w'.device view data shared P
  empty : ∀ q, IsPath m q → P <+: q → Precedes q Q → zoneOf view data q = 0 ∨ Broken disk w.device.clock view data Q q
  broken : ∀ q, Broken disk w.device.clock view data Q q → P <+: q

/-- How far a branch can be followed. -/
theorem Branch.Along.chain {clock m : Nat} {d : Device} {data : Nat → Nat} {path : List Nat} {b : Branch}
    (along : b.Along disk clock m d view data path) (isPath : IsPath m path) : ∃ R rest, path = R ++ rest ∧
      Chain m d view data b.chain R ∧ (zoneOf view data R = 0 ∨ rest = [] ∨ Unread disk clock view data path R) ∧
        ∀ R', Unread disk clock view data path R' → R' = R := by
  cases b with
  | found chain =>
    obtain ⟨is, nonzero, readable⟩ := along
    refine ⟨path, [], by simp, is, .inr (.inl rfl), fun R' unread => ?_⟩
    rw [← List.append_nil path] at unread isPath
    exact unread.eq isPath is.nonempty readable (.inr (.inl rfl))
  | missing chain rest =>
    obtain ⟨R, rfl, is, zero, readable⟩ := along
    exact ⟨R, rest, rfl, is, .inl zero, fun R' unread => unread.eq isPath is.nonempty readable (.inl zero)⟩
  | failed chain rest e =>
    obtain ⟨R, rfl, is, nonzero, more, readable, failed⟩ := along
    have failed : answer disk clock view data R ≠ none := by simp [failed]
    exact ⟨R, rest, rfl, is, .inr (.inr ⟨⟨rest, rfl, more⟩, is.nonempty, nonzero, readable, failed⟩),
      fun R' unread => unread.eq isPath is.nonempty readable (.inr (.inr failed))⟩

section Ends

variable {m o : Nat} {d : Device} {data : Nat → Nat} {chain left shared : List Indirect} {p : Indirect} {w' : World Fs}
  {r zeros R beyond P post : List Nat}

/-- A chain to the end of the path goes on to the entry before that one. -/
theorem Chain.endsBefore (is : Chain m d view data (p :: shared) P) (path : o :: r = P) (some : shared ≠ [])
    (last : ∀ pre k, r = pre ++ [k] → k ≠ 0) (allZero : ∀ z ∈ zeros, z = 0)
    (works : Works disk w ⟨w.state, d⟩ [] (handles (p :: shared)) view)
    (read : ∀ R, ¬ Unread disk w.device.clock view data (dropZeroes (o :: (r ++ zeros))) R) :
    ∃ pre k, EndsBefore disk m view data (o :: (r ++ zeros)) w ({ p with offset := p.offset - 1 } :: shared) ⟨w.state, d⟩
      pre k zeros := by
  cases is with
  | root bound => exact absurd rfl some
  | @step q chain pre h k above nonzero number inside =>
    obtain _ | ⟨o', pre⟩ := pre
    · exact absurd rfl above.nonempty
    obtain ⟨rfl, rfl⟩ := List.cons.inj path
    have positive := last pre k rfl
    have key := above.key
    refine ⟨o :: pre, k, by simp, by simp, by omega, allZero, works, ?_, read⟩
    exact .step above.spine (key ▸ nonzero) (number.trans key) (Nat.lt_of_le_of_lt (Nat.sub_le _ _) inside)

/-- A chain that has risen ends at its entry when that one is cut off. -/
theorem Rises.endsAt (cut : dropZeroes (o :: (r ++ zeros)) = o :: r) (allZero : ∀ z ∈ zeros, z = 0)
    (split : o :: r = R ++ beyond) (nonempty : R ≠ [])
    (ended : zoneOf view data R = 0 ∨ beyond = [] ∨ Unread disk w.device.clock view data (o :: r) R)
    (unique : ∀ R', Unread disk w.device.clock view data (o :: r) R' → R' = R)
    (rises : Rises m d view data chain R [] left (p :: shared) P post) {view₁ : Nat → Bytes} {data₁ : Nat → Nat}
    (edits : Edits disk ptr w w' [] (handles (p :: shared)) view₁ data₁) (written : Written view data P 0 view₁ data₁)
    (same : ∀ h ∈ handles (p :: shared), w'.device.number h = d.number h) :
    EndsAt disk ptr m view data (o :: (r ++ zeros)) w (p :: shared) p.key w' P view₁ data₁ := by
  have whole : o :: (r ++ zeros) = R ++ (beyond ++ zeros) := by
    rw [← List.append_assoc, ← split]
    rfl
  refine ⟨⟨post ++ (beyond ++ zeros), by rw [whole, rises.path, List.append_assoc]⟩, edits, written, rises.chain.key,
    rises.chain.spine.congr (fun _ _ _ _ => rfl) same, fun q isQ below before => ?_, fun q broken => ?_⟩
  · obtain ⟨q, rfl⟩ := below
    rw [whole, rises.path, List.append_assoc, precedes_append_left] at before
    rcases prefix_or_precedes_right before with ⟨q, rfl⟩ | before
    · rw [precedes_append_left] at before
      have inside : R <+: P ++ (post ++ q) := ⟨q, by rw [rises.path, List.append_assoc]⟩
      rcases ended with zero | rfl | unread
      · exact .inl (zoneOf_upper isQ nonempty inside zero)
      · exact absurd before (not_precedes_of_least Nat.zero_le allZero)
      · exact .inr ⟨R, cut ▸ unread, inside⟩
    · exact .inl (rises.empty q isQ (by rwa [List.append_nil]))
  · obtain ⟨R', unread, inside⟩ := broken
    rw [cut] at unread
    rw [unique R' unread, rises.path] at inside
    exact (List.prefix_append _ _).trans inside

end Ends

/-- `find_shared` leaves the chain to the last block that is shared. -/
theorem findShared_shares {o : Nat} {rest : List Nat}
    (live : (w.state.inodes ptr).deleted = false) (layout : w.state.geometry.Layout)
    (tree : Tree w.state.geometry view (w.state.inodes ptr).data) (isPath : IsPath w.state.indirCount (o :: rest))
    (stored : Stored disk w [] [] view) :
    Spends (releases w.state.zoneMaps) disk allowed (findShared ptr (o :: rest)) (fun r n w' => n = 0 ∧
      ((r.2 = 0 ∧ ∃ pre k zeros, EndsBefore disk w.state.indirCount view (w.state.inodes ptr).data (o :: rest) w r.1 w' pre k zeros) ∨
      ∃ P view₁ data₁, EndsAt disk ptr w.state.indirCount view (w.state.inodes ptr).data (o :: rest) w r.1 r.2 w' P view₁
        data₁)) w := by
  obtain ⟨r, zeros, cut, rfl, allZero, last⟩ := dropZeroes_drops o rest
  have isWhole : IsPath w.state.indirCount ((o :: r) ++ zeros) := isPath
  have isCut : IsPath w.state.indirCount (o :: r) := isWhole.upper (by simp)
  unfold findShared
  dsimp only
  rw [cut]
  refine spends_first (free_getBranch _ _) ((getBranch_along live layout tree isCut stored).mono ?_)
  rintro b ⟨s₁, d₁⟩ ⟨works, along⟩
  obtain rfl : s₁ = w.state := works.state
  obtain ⟨R, beyond, split, is, ended, unique⟩ := along.chain isCut
  have stored₁ : Stored disk ⟨w.state, d₁⟩ (handles b.chain ++ []) [] view := works.stored.perm (by simp) (.refl _)
  cases chain : b.chain with
  | nil =>
    rw [chain] at is
    cases is
  | cons end' above =>
  rw [chain] at is stored₁
  have held : ∀ h ∈ handles (end' :: above), h ∈ (handles (end' :: above) ++ []) ++ [] := fun h member => by
    simpa using member
  refine spends_first (free_readEntry _ _ _) ((is.read (w := ⟨w.state, d₁⟩) live stored₁ held).mpr ?_)
  rw [if_neg fun both => both.2 both.1]
  refine spends_first (free_rise _ _ _) ((rise_rises (w := ⟨w.state, d₁⟩) (end' :: above) is stored₁ held .nil).mono ?_)
  rintro ⟨left, shared⟩ _ ⟨rfl, popped, P, post, same, rises⟩
  obtain rfl : left = popped := same
  cases shared with
  | nil => cases rises.chain
  | cons p shared =>
  have parted : handles (end' :: above) = handles left ++ handles (p :: shared) := by
    rw [rises.split, handles_append]
  rw [parted] at stored₁
  dsimp only
  split
  · rename_i whole
    obtain ⟨rfl, long, some⟩ := whole
    have lengths := congrArg List.length split
    have upper := congrArg List.length rises.path
    have length := rises.chain.length
    simp only [List.length_append, List.length_cons] at lengths upper length long
    obtain rfl : post = [] := List.eq_nil_of_length_eq_zero (by omega)
    obtain rfl : beyond = [] := List.eq_nil_of_length_eq_zero (by omega)
    have read : ∀ R', ¬ Unread disk w.device.clock view (w.state.inodes ptr).data (dropZeroes (o :: (r ++ zeros))) R' := by
      intro R' unread
      rw [cut] at unread
      obtain ⟨rest, whole, more⟩ := unread.above
      rw [split, unique R' unread, List.append_nil] at whole
      exact more (List.self_eq_append_right.mp whole)
    have path : o :: r = P := by rw [split, rises.path, List.append_nil, List.append_nil]
    have pinned : Works disk w ⟨w.state, d₁⟩ [] (handles (p :: shared)) view :=
      ⟨rfl, works.follows, (stored_pinAll _ stored₁).perm (.refl _) (by simp)⟩
    obtain ⟨pre, k, ends⟩ := rises.chain.endsBefore path some last allZero pinned read
    exact spends_pure.mpr ⟨rfl, .inl ⟨rfl, pre, k, zeros, ends⟩⟩
  · have same : ∀ h ∈ handles (p :: shared), h ∈ handles (p :: shared) := fun h member => member
    obtain ⟨pre, Peq, leads⟩ := rises.chain.leads same
    have isR : IsPath w.state.indirCount R := (split ▸ isCut).upper is.nonempty
    have isP : IsPath w.state.indirCount P := (rises.path ▸ isR).upper rises.chain.nonempty
    have pinned : Stored disk ⟨w.state, d₁⟩ (handles left) (handles (p :: shared)) view := by
      refine (stored_pinAll (handles (p :: shared)) (stored₁.perm ?_ (.refl _))).perm (.refl _) (by simp)
      rw [List.append_nil]
      exact List.perm_append_comm
    have off : p.area.Off w.state.zoneMaps := leads.off pinned
    refine spends_first (free_readEntry _ _ _) ((rises.chain.read (w := ⟨w.state, d₁⟩) live pinned fun h member =>
      List.mem_append_right _ member).mpr ?_)
    refine spends_first (free_writeEntry _ off _ _) ((writeEntry_leads (w := ⟨w.state, d₁⟩) live pinned leads (Peq ▸ isP) (by omega)).mono ?_)
    rintro _ w₂ ⟨view₁, data₁, edits, written⟩
    rw [← Peq] at written
    have stored₂ : Stored disk w₂ (handles left ++ []) (handles (p :: shared)) view₁ :=
      edits.stored.perm (by simp) (.refl _)
    refine spends_first (free_unfixAll _) ((unfixAll_stored left stored₂).mono ?_)
    intro _ w₃ released
    have edits₃ := (works.edits.trans edits).then released
    have numbers : ∀ h ∈ handles (p :: shared), w₃.device.number h = d₁.number h := fun h member =>
      (edits.follows.trans released.follows).number h (pinned.early (List.mem_append_right _ member))
    exact spends_pure.mpr ⟨rfl, .inr ⟨P, view₁, data₁, rises.endsAt cut allZero split is.nonempty ended unique edits₃
      written numbers⟩⟩

end Sharing

end MPStuBS.Minix
