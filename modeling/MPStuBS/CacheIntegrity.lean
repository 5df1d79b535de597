import MPStuBS.CallSteps
import MPStuBS.References
import MPStuBS.VfsDevices
import Mathlib.Data.List.Nodup

/-! The list of cached inodes and its counter in every state that the calls can reach. -/
namespace MPStuBS

open Prog FsM

/-- What the inode cache is meant to satisfy between two calls. -/
structure Fs.Cached (s : Fs) : Prop where
  live : ∀ o ∈ s.icache, (s.inodes o).deleted = false
  loaded : ∀ o ∈ s.icache, (s.inodes o).new = false
  distinct : (s.icache.map fun o => (s.inodes o).ino).Nodup
  counted : s.numInodes = s.icache.length

/-- Some inode was deleted because it could not be read. -/
def Fs.HasLost (s : Fs) : Prop := ∃ o, .lost o ∈ s.log

/-- Inodes that have been read and are told apart by their numbers. -/
structure Settled (s : Fs) (l : List Nat) : Prop where
  early : ∀ o ∈ l, o < s.allocated
  live : ∀ o ∈ l, (s.inodes o).deleted = false
  loaded : ∀ o ∈ l, (s.inodes o).new = false
  numbered : ∀ o ∈ l, (s.inodes o).ino ≠ 0
  nodup : l.Nodup
  distinct : ∀ o ∈ l, ∀ p ∈ l, (s.inodes o).ino = (s.inodes p).ino → o = p

structure Inode.SameLife (i j : Inode) : Prop where
  ino : j.ino = i.ino
  new : j.new = i.new
  deleted : j.deleted = i.deleted

theorem Inode.Kept.sameLife {i j : Inode} (kept : i.Kept j) : i.SameLife j :=
  ⟨kept.ino, kept.new, kept.deleted⟩

namespace Settled

variable {s s' : Fs} {l : List Nat}

theorem congr (settled : Settled s l) (allocated : s.allocated ≤ s'.allocated)
    (same : ∀ o ∈ l, (s.inodes o).SameLife (s'.inodes o)) : Settled s' l where
  early o member := Nat.lt_of_lt_of_le (settled.early o member) allocated
  live o member := (same o member).deleted.trans (settled.live o member)
  loaded o member := (same o member).new.trans (settled.loaded o member)
  numbered o member := by
    rw [(same o member).ino]
    exact settled.numbered o member
  nodup := settled.nodup
  distinct o member p member' eq := by
    rw [(same o member).ino, (same p member').ino] at eq
    exact settled.distinct o member p member' eq

theorem erase (settled : Settled s l) (o : Nat) : Settled s (l.erase o) where
  early p member := settled.early p (List.mem_of_mem_erase member)
  live p member := settled.live p (List.mem_of_mem_erase member)
  loaded p member := settled.loaded p (List.mem_of_mem_erase member)
  numbered p member := settled.numbered p (List.mem_of_mem_erase member)
  nodup := settled.nodup.erase o
  distinct p member q member' := settled.distinct p (List.mem_of_mem_erase member) q
    (List.mem_of_mem_erase member')

/-- One more inode, with a number of its own. -/
theorem append {o : Nat} (settled : Settled s l) (early : o < s.allocated)
    (live : (s.inodes o).deleted = false) (loaded : (s.inodes o).new = false)
    (numbered : (s.inodes o).ino ≠ 0) (apart : ∀ p ∈ l, (s.inodes p).ino ≠ (s.inodes o).ino) :
    Settled s (l ++ [o]) := by
  have all : ∀ {P : Nat → Prop}, (∀ p ∈ l, P p) → P o → ∀ p ∈ l ++ [o], P p := by
    intro P inList here p member
    rcases List.mem_append.mp member with old | new
    · exact inList p old
    · exact List.mem_singleton.mp new ▸ here
  have outside : o ∉ l := fun member => apart o member rfl
  refine ⟨all settled.early early, all settled.live live, all settled.loaded loaded,
    all settled.numbered numbered, ?_, all (fun p member => all (settled.distinct p member) fun eq =>
      absurd eq (apart p member)) (all (fun p member eq => absurd eq.symm (apart p member)) fun _ => rfl)⟩
  exact List.nodup_append.mpr ⟨settled.nodup, List.nodup_singleton o, fun p member q single eq =>
    outside (List.mem_singleton.mp single ▸ eq ▸ member)⟩

end Settled

/-- An inode that could not be read is deleted and stays in the list; without one the cache
is in order. -/
structure Fs.Ordered (s : Fs) : Prop where
  early : ∀ o ∈ s.icache, o < s.allocated
  lost : ∀ o, .lost o ∈ s.log → o ∈ s.icache ∧ (s.inodes o).deleted = true
  settled : ¬ s.HasLost → Settled s s.icache
  counted : ¬ s.HasLost → s.numInodes = s.icache.length

theorem Fs.Ordered.cached_iff {s : Fs} (ordered : s.Ordered) : s.Cached ↔ ¬ s.HasLost := by
  constructor
  · rintro cached ⟨o, isLost⟩
    obtain ⟨member, deleted⟩ := ordered.lost o isLost
    rw [cached.live o member] at deleted
    cases deleted
  · intro none
    have settled := ordered.settled none
    exact ⟨settled.live, settled.loaded, settled.nodup.map_on settled.distinct, ordered.counted none⟩

/-- The list, its counter and the lives of all inodes are the same. -/
structure Fs.SameCache (s s' : Fs) : Prop where
  icache : s'.icache = s.icache
  numInodes : s'.numInodes = s.numInodes
  allocated : s'.allocated = s.allocated
  lost : ∀ o, .lost o ∈ s'.log ↔ .lost o ∈ s.log
  life : ∀ o, (s.inodes o).SameLife (s'.inodes o)

theorem Fs.SameCache.hasLost {s s' : Fs} (same : s.SameCache s') : s'.HasLost ↔ s.HasLost :=
  exists_congr same.lost

theorem Fs.SameCache.ordered {s s' : Fs} (same : s.SameCache s') (ordered : s.Ordered) : s'.Ordered := by
  refine ⟨fun o member => ?_, fun o isLost => ?_, fun none => ?_, fun none => ?_⟩
  · rw [same.allocated]
    exact ordered.early o (same.icache ▸ member)
  · obtain ⟨member, deleted⟩ := ordered.lost o ((same.lost o).mp isLost)
    exact ⟨same.icache ▸ member, (same.life o).deleted.trans deleted⟩
  · rw [same.icache]
    exact (ordered.settled (same.hasLost.not.mp none)).congr (Nat.le_of_eq same.allocated.symm)
      fun o _ => same.life o
  · rw [same.numInodes, same.icache]
    exact ordered.counted (same.hasLost.not.mp none)

theorem Fs.Quiet.sameCache {s s' : Fs} (quiet : s.Quiet s') : s.SameCache s' := by
  obtain ⟨inodes, rfl, kept⟩ := quiet
  exact ⟨rfl, rfl, rfl, fun _ => Iff.rfl, fun o => (kept o).sameLife⟩

/-- What was in order stays in order. -/
def Fs.Orders (s s' : Fs) : Prop := s.Ordered → s'.Ordered

instance : IsPreorder Fs Fs.Orders where
  refl _ := id
  trans _ _ _ fst snd := snd ∘ fst

abbrev Orders {α : Type} (p : FsM α) : Prop := Keeps Fs.Orders p

theorem Orders.of_ordered {α : Type} {p : FsM α}
    (orders : ∀ s : Fs, s.Ordered → p.Always (fun _ s' => s'.Ordered) s) : Orders p := by
  intro s
  by_cases ordered : s.Ordered
  · exact (orders s ordered).mono fun _ _ after _ => after
  · exact (always_true p s).mono fun _ _ _ before => absurd before ordered

theorem Orders.calm {α : Type} {p : FsM α} (quiet : Quiet p) : Orders p := fun s =>
  (quiet s).mono fun _ _ quiet => quiet.sameCache.ordered

theorem Orders.modify {f : Fs → Fs} (same : ∀ s : Fs, s.SameCache (f s)) : Orders (FsM.modify f) :=
  fun s => (same s).ordered

theorem always_inode {ptr : Nat} {post : Inode → Fs → Prop} {s : Fs}
    (read : (s.inodes ptr).deleted = false → post (s.inodes ptr) s) : (FsM.inode ptr).Always post s := by
  simp only [FsM.inode, always_bind]
  change Always (if (s.inodes ptr).deleted then _ else _) _ _
  split
  · trivial
  · rename_i live
    exact read (Bool.not_eq_true _ ▸ live)

theorem always_setInode {ptr : Nat} {f : Inode → Inode} {post : Unit → Fs → Prop} {s : Fs}
    (written : (s.inodes ptr).deleted = false → post () (s.setInode ptr f)) :
    (FsM.setInode ptr f).Always post s := by
  simp only [FsM.setInode, always_bind]
  change Always (if (s.inodes ptr).deleted then _ else _) _ _
  split
  · trivial
  · rename_i live
    exact written (Bool.not_eq_true _ ▸ live)

/-- Only inodes change, and only the given one in what decides about its life. -/
def Fs.QuietBut (o : Nat) (s s' : Fs) : Prop :=
  ∃ inodes, s' = { s with inodes := inodes } ∧ ∀ p, p ≠ o → (s.inodes p).Kept (inodes p)

instance {o : Nat} : IsPreorder Fs (Fs.QuietBut o) where
  refl s := ⟨s.inodes, rfl, fun p _ => .refl _⟩
  trans := by
    rintro a b c ⟨inodes, rfl, kept⟩ ⟨inodes', rfl, kept'⟩
    exact ⟨inodes', rfl, fun p other => (kept p other).trans (kept' p other)⟩

theorem Fs.Quiet.but {s s' : Fs} (quiet : s.Quiet s') (o : Nat) : s.QuietBut o s' := by
  obtain ⟨inodes, rfl, kept⟩ := quiet
  exact ⟨inodes, rfl, fun p _ => kept p⟩

theorem Fs.QuietBut.icache {o : Nat} {s s' : Fs} (quiet : s.QuietBut o s') : s'.icache = s.icache := by
  obtain ⟨inodes, rfl, _⟩ := quiet
  rfl

theorem quietBut_setInode (s : Fs) (o : Nat) (f : Inode → Inode) : s.QuietBut o (s.setInode o f) := by
  refine ⟨_, rfl, fun p other => ?_⟩
  rw [Function.update_of_ne other]
  exact .refl _

theorem quietBut_destroy (o : Nat) : Keeps (Fs.QuietBut o) (Inode.destroy o) := by
  have calm : ∀ {α : Type} {p : FsM α}, Quiet p → Keeps (Fs.QuietBut o) p := fun quiet s =>
    (quiet s).mono fun _ _ quiet => quiet.but o
  have deletes : Keeps (Fs.QuietBut o) (FsM.setInode o fun i => { i with deleted := true }) := fun s =>
    always_setInode fun _ => quietBut_setInode s o _
  refine (calm Quiet.inode).bind fun i => ?_
  split
  · exact (calm (Minix.quiet_truncate _ _)).bind fun _ => (calm (Minix.quiet_freeInode _)).bind
      fun _ => deletes
  · split
    · exact (calm (Inode.quiet_writeToDisk _)).bind fun _ => deletes
    · exact deletes

namespace Fs.Ordered

variable {s s₁ : Fs} {o : Nat}

/-- An inode that is not in the list may change. -/
theorem quietBut (ordered : s.Ordered) (outside : o ∉ s.icache) (quiet : s.QuietBut o s₁) :
    s₁.Ordered := by
  obtain ⟨inodes, rfl, kept⟩ := quiet
  have apart : ∀ p ∈ s.icache, p ≠ o := fun p member eq => outside (eq ▸ member)
  refine ⟨ordered.early, fun p isLost => ?_, fun none => ?_, ordered.counted⟩
  · obtain ⟨member, deleted⟩ := ordered.lost p isLost
    exact ⟨member, (kept p (apart p member)).deleted.trans deleted⟩
  · exact (ordered.settled none).congr (Nat.le_refl _) fun p member => (kept p (apart p member)).sameLife

/-- An inode leaves the list, is destroyed or not, and the counter goes down. -/
theorem drop (ordered : s.Ordered) (live : (s.inodes o).deleted = false)
    (member : ¬ s.HasLost → o ∈ s.icache)
    (quiet : Fs.QuietBut o { s with icache := s.icache.erase o } s₁) :
    Fs.Ordered { s₁ with numInodes := s₁.numInodes - 1 } := by
  obtain ⟨inodes, rfl, kept⟩ := quiet
  refine ⟨fun p inRest => ordered.early p (List.mem_of_mem_erase inRest), fun p isLost => ?_,
    fun none => ?_, fun none => ?_⟩
  · obtain ⟨inList, deleted⟩ := ordered.lost p isLost
    have other : p ≠ o := by
      rintro rfl
      rw [live] at deleted
      cases deleted
    exact ⟨(List.mem_erase_of_ne other).mpr inList, (kept p other).deleted.trans deleted⟩
  · have settled := ordered.settled none
    refine (settled.erase o).congr (Nat.le_refl _) fun p inRest => ?_
    exact (kept p (settled.nodup.mem_erase_iff.mp inRest).1).sameLife
  · change s.numInodes - 1 = (s.icache.erase o).length
    rw [List.length_erase_of_mem (member none), ordered.counted none]

end Fs.Ordered

namespace InodeCache

variable {s : Fs}

/-- The elements of a list that a loop has still to visit. -/
def Ahead (s : Fs) (rest : List Nat) : Prop := ¬ s.HasLost → rest.Nodup ∧ ∀ o ∈ rest, o ∈ s.icache

theorem Ahead.quiet {s' : Fs} {rest : List Nat} (ahead : Ahead s rest) (quiet : s.Quiet s') :
    Ahead s' rest := by
  obtain ⟨inodes, rfl, kept⟩ := quiet
  exact ahead

theorem Ahead.skip {cur : Nat} {rest : List Nat} (ahead : Ahead s (cur :: rest)) : Ahead s rest :=
  fun none => ⟨(List.nodup_cons.mp (ahead none).1).2, fun o later => (ahead none).2 o (.tail _ later)⟩

/-- The rest of a loop after the current inode has left the list. -/
theorem Ahead.drop {s₁ : Fs} {cur : Nat} {rest : List Nat} (ahead : Ahead s (cur :: rest))
    (quiet : Fs.QuietBut cur { s with icache := s.icache.erase cur } s₁) :
    Ahead { s₁ with numInodes := s₁.numInodes - 1 } rest := by
  obtain ⟨inodes, rfl, kept⟩ := quiet
  intro none
  obtain ⟨nodup, inList⟩ := ahead none
  obtain ⟨first, rest⟩ := List.nodup_cons.mp nodup
  refine ⟨rest, fun o later => ?_⟩
  have other : o ≠ cur := fun eq => first (eq ▸ later)
  exact (List.mem_erase_of_ne other).mpr (inList o (.tail _ later))

theorem ahead_all (ordered : s.Ordered) : Ahead s s.icache := fun none =>
  ⟨(ordered.settled none).nodup, fun _ => id⟩

theorem evictLoop_orders (cache : List Nat) : ∀ {s : Fs}, s.Ordered → Ahead s cache →
    (evictLoop cache).Always (fun _ s' => s'.Ordered) s := by
  induction cache with
  | nil => exact fun ordered _ => ordered
  | cons cur rest ih =>
    intro s ordered ahead
    simp only [evictLoop, always_bind]
    change Always (if s.numInodes ≤ softLimit then _ else _) _ s
    split
    · exact ordered
    simp only [always_bind]
    refine always_inode fun live => ?_
    split
    · simp only [always_bind]
      refine (quietBut_destroy cur _).mono fun _ s₁ quiet => ?_
      exact ih (ordered.drop live (fun none => (ahead none).2 cur (.head _)) quiet) (ahead.drop quiet)
    · exact ih ordered ahead.skip

theorem syncLoop_orders (cache : List Nat) : ∀ {s : Fs}, s.Ordered → Ahead s cache →
    (syncLoop cache).Always (fun _ s' => s'.Ordered) s := by
  induction cache with
  | nil => exact fun ordered _ => ordered
  | cons cur rest ih =>
    intro s ordered ahead
    simp only [syncLoop, always_bind]
    refine always_inode fun live => ?_
    split
    · simp only [always_bind]
      refine (quietBut_destroy cur _).mono fun _ s₁ quiet => ?_
      exact ih (ordered.drop live (fun none => (ahead none).2 cur (.head _)) quiet) (ahead.drop quiet)
    · split
      · simp only [always_bind]
        refine (Inode.quiet_writeToDisk cur s).mono fun _ s₁ quiet => ?_
        exact ih (quiet.sameCache.ordered ordered) (ahead.skip.quiet quiet)
      · exact ih ordered ahead.skip

theorem removeLoop_orders (cache : List Nat) : ∀ {s : Fs}, s.Ordered → Ahead s cache →
    (removeLoop cache).Always (fun _ s' => s'.Ordered) s := by
  induction cache with
  | nil => exact fun ordered _ => ordered
  | cons cur rest ih =>
    intro s ordered ahead
    have next : ∀ {s₁ : Fs}, (s.inodes cur).deleted = false →
        Fs.QuietBut cur { s with icache := s.icache.erase cur } s₁ →
        (do
          decrement
          removeLoop rest).Always (fun _ s' => s'.Ordered) s₁ := fun live quiet =>
      ih (ordered.drop live (fun none => (ahead none).2 cur (.head _)) quiet) (ahead.drop quiet)
    simp only [removeLoop, always_bind]
    change Always _ _ { s with icache := s.icache.erase cur }
    refine always_inode fun live => ?_
    split
    · simp only [always_bind]
      exact (quietBut_destroy cur _).mono fun _ s₁ quiet => next live quiet
    · exact next live (refl_of (Fs.QuietBut cur) _)

theorem contains_always (ino : Nat) (cache : List Nat) (s : Fs) : (contains ino cache).Always
    (fun found s' => s' = s ∧ (found = true → ∃ o ∈ cache, (s.inodes o).ino = ino) ∧
      (found = false → ∀ o ∈ cache, (s.inodes o).deleted = false ∧ (s.inodes o).ino ≠ ino)) s := by
  induction cache with
  | nil => exact ⟨rfl, by simp, by simp⟩
  | cons cur rest ih =>
    simp only [contains, always_bind]
    refine always_inode fun live => ?_
    split
    · rename_i here
      exact ⟨rfl, fun _ => ⟨cur, .head _, here⟩, by simp⟩
    · rename_i other
      refine ih.mono ?_
      rintro found s' ⟨same, member, absent⟩
      refine ⟨same, fun isFound => ?_, fun isAbsent o inCache => ?_⟩
      · obtain ⟨o, later, eq⟩ := member isFound
        exact ⟨o, .tail _ later, eq⟩
      · rcases List.mem_cons.mp inCache with rfl | later
        · exact ⟨live, other⟩
        · exact absent isAbsent o later

theorem find_always (ino : Nat) (cache : List Nat) (s : Fs) : (find ino cache).Always
    (fun found s' => s' = s ∧ (∀ o ∈ found, o ∈ cache) ∧
      (found = none → ∀ o ∈ cache, (s.inodes o).deleted = false ∧ (s.inodes o).ino ≠ ino)) s := by
  induction cache with
  | nil => exact ⟨rfl, by simp, by simp⟩
  | cons cur rest ih =>
    simp only [find, always_bind]
    refine always_inode fun live => ?_
    split
    · refine ⟨rfl, ?_, by simp⟩
      rintro o ⟨⟩
      exact .head _
    · rename_i other
      refine ih.mono ?_
      rintro found s' ⟨same, member, absent⟩
      refine ⟨same, fun o isFound => .tail _ (member o isFound), fun isAbsent o inCache => ?_⟩
      rcases List.mem_cons.mp inCache with rfl | later
      · exact ⟨live, other⟩
      · exact absent isAbsent o later

/-- A list that was read to its end has no inode that was lost. -/
theorem not_hasLost (ordered : s.Ordered) (live : ∀ o ∈ s.icache, (s.inodes o).deleted = false) :
    ¬ s.HasLost := by
  rintro ⟨o, isLost⟩
  obtain ⟨member, deleted⟩ := ordered.lost o isLost
  rw [live o member] at deleted
  cases deleted

/-- An inode that is complete is put into the list, unless its number is there. -/
theorem insertInode_orders {o : Nat} (ordered : s.Ordered) (early : o < s.allocated)
    (loaded : (s.inodes o).new = false) (numbered : (s.inodes o).ino ≠ 0) :
    (insertInode o).Always (fun _ s' => s'.Ordered) s := by
  simp only [insertInode, always_bind]
  refine always_inode fun live => ?_
  refine (contains_always _ _ s).mono ?_
  rintro found s' ⟨rfl, _, absent⟩
  split
  · exact ordered
  · rename_i isAbsent
    have absent := absent (by simpa using isAbsent)
    have none := not_hasLost ordered fun p member => (absent p member).1
    have settled := (ordered.settled none).append early live loaded numbered fun p member => (absent p member).2
    refine ⟨settled.early, fun p isLost => absurd ⟨p, isLost⟩ none, fun _ => settled.congr (Nat.le_refl _)
      fun _ _ => ⟨rfl, rfl, rfl⟩, fun _ => ?_⟩
    change s'.numInodes + 1 = (s'.icache ++ [o]).length
    rw [List.length_append, ordered.counted none]
    rfl

/-- The cache while an inode with the number is read: all others are in order. -/
structure Loading (ino : Nat) (s : Fs) (o : Nat) : Prop where
  none : ¬ s.HasLost
  early : o < s.allocated
  counted : s.numInodes = s.icache.length
  before : ∃ l, s.icache = l ++ [o] ∧ o ∉ l ∧ Settled s l ∧ ∀ p ∈ l, (s.inodes p).ino ≠ ino

namespace Loading

variable {ino o : Nat}

theorem quietBut {s₁ : Fs} (loading : Loading ino s o) (quiet : s.QuietBut o s₁) : Loading ino s₁ o := by
  obtain ⟨inodes, rfl, kept⟩ := quiet
  obtain ⟨l, split, outside, settled, apart⟩ := loading.before
  have other : ∀ p ∈ l, p ≠ o := fun p member eq => outside (eq ▸ member)
  refine ⟨loading.none, loading.early, loading.counted, l, split, outside,
    settled.congr (Nat.le_refl _) fun p member => (kept p (other p member)).sameLife, fun p member => ?_⟩
  have same : (inodes p).ino = (s.inodes p).ino := (kept p (other p member)).ino
  exact same ▸ apart p member

theorem ordered (loading : Loading ino s o) (positive : ino ≠ 0) (live : (s.inodes o).deleted = false)
    (loaded : (s.inodes o).new = false) (number : (s.inodes o).ino = ino) : s.Ordered := by
  obtain ⟨l, split, outside, settled, apart⟩ := loading.before
  have all : Settled s s.icache := by
    rw [split]
    exact settled.append loading.early live loaded (number ▸ positive) fun p member => number ▸ apart p member
  exact ⟨all.early, fun p isLost => absurd ⟨p, isLost⟩ loading.none, fun _ => all, fun _ => loading.counted⟩

theorem lose (loading : Loading ino s o) (deleted : (s.inodes o).deleted = true) :
    (s.note (.lost o)).Ordered := by
  obtain ⟨l, split, outside, settled, apart⟩ := loading.before
  have isLost : (s.note (.lost o)).HasLost := ⟨o, List.mem_append_right _ (.head _)⟩
  refine ⟨fun p member => ?_, fun p lost => ?_, fun none => absurd isLost none, fun none => absurd isLost none⟩
  · have member : p ∈ l ++ [o] := split ▸ member
    rcases List.mem_append.mp member with old | new
    · exact settled.early p old
    · exact List.mem_singleton.mp new ▸ loading.early
  · rcases List.mem_append.mp lost with old | new
    · exact absurd ⟨p, old⟩ loading.none
    · obtain rfl := FsEvent.lost.inj (List.mem_singleton.mp new)
      exact ⟨split ▸ List.mem_append_right _ (.head _), deleted⟩

end Loading

/-- An inode of the list, or a new one at its end that has yet to be read. -/
def Got (ino o : Nat) (s : Fs) : Prop :=
  s.Ordered ∧ o ∈ s.icache ∨ Loading ino s o ∧ (s.inodes o).new = true

theorem sameCache_get (o : Nat) (s : Fs) : (Inode.get o).Always (fun _ s' => s.SameCache s') s := by
  simp only [Inode.get, always_bind]
  refine always_setInode fun _ => ⟨rfl, rfl, rfl, fun _ => Iff.rfl, fun p => ?_⟩
  by_cases here : p = o
  · subst here
    simp only [Fs.setInode, Function.update_self]
    exact ⟨rfl, rfl, rfl⟩
  · simp only [Fs.setInode, Function.update_of_ne here]
    exact ⟨rfl, rfl, rfl⟩

/-- A new object, which nothing refers to yet. -/
theorem allocated_ordered (ordered : s.Ordered) {n : Nat} : Fs.Ordered { s with
    inodes := Function.update s.inodes s.allocated .fresh
    allocated := s.allocated + 1
    numInodeReferences := n } := by
  have other : ∀ o ∈ s.icache, o ≠ s.allocated := fun o member => Nat.ne_of_lt (ordered.early o member)
  refine ⟨fun o member => Nat.lt_succ_of_lt (ordered.early o member), fun o isLost => ?_, fun none => ?_,
    ordered.counted⟩
  · obtain ⟨member, deleted⟩ := ordered.lost o isLost
    exact ⟨member, by simpa [Function.update_of_ne (other o member)] using deleted⟩
  · refine (ordered.settled none).congr (Nat.le_succ _) fun o member => ?_
    simp only [Function.update_of_ne (other o member)]
    exact ⟨rfl, rfl, rfl⟩

theorem getInode_got (ordered : s.Ordered) (ino : Nat) :
    (getInode ino).Always (fun o s' => Got ino o s') s := by
  simp only [getInode, always_bind]
  refine (evictLoop_orders s.icache ordered (ahead_all ordered)).mono fun _ s₁ ordered => ?_
  refine (find_always ino s₁.icache s₁).mono ?_
  rintro found s₂ ⟨rfl, member, absent⟩
  cases found with
  | some cur =>
    simp only [always_bind]
    refine (sameCache_get cur s₂).mono fun _ s₃ same => .inl ⟨same.ordered ordered, ?_⟩
    exact same.icache ▸ member cur rfl
  | none =>
    have absent := absent rfl
    have none := not_hasLost ordered fun p inCache => (absent p inCache).1
    simp only [allocateInode, insertInode, always_bind]
    change Always _ _ _
    set fresh : Fs := { s₂ with
      inodes := Function.update s₂.inodes s₂.allocated .fresh
      allocated := s₂.allocated + 1
      numInodeReferences := s₂.numInodeReferences + 1 } with isFresh
    have new : fresh.inodes s₂.allocated = .fresh := Function.update_self _ _ _
    have ordered' : fresh.Ordered := allocated_ordered ordered
    refine always_inode fun _ => (contains_always _ _ fresh).mono ?_
    rintro found s' ⟨rfl, member, _⟩
    have settled := ordered'.settled none
    cases found with
    | true =>
      obtain ⟨p, inCache, zero⟩ := member rfl
      exact absurd (zero.trans (congrArg Inode.ino new)) (settled.numbered p inCache)
    | false =>
      refine .inr ⟨⟨none, Nat.lt_succ_self _, ?_, s₂.icache, rfl, fun inCache => ?_, settled.congr
        (Nat.le_refl _) fun _ _ => ⟨rfl, rfl, rfl⟩, fun p inCache => ?_⟩, congrArg Inode.new new⟩
      · change s₂.numInodes + 1 = (s₂.icache ++ [s₂.allocated]).length
        rw [List.length_append, ordered.counted none]
        rfl
      · exact Nat.lt_irrefl _ (ordered.early _ inCache)
      · have other : p ≠ s₂.allocated := Nat.ne_of_lt (ordered.early p inCache)
        change (fresh.inodes p).ino ≠ ino
        simp only [isFresh, Function.update_of_ne other]
        exact (absent p inCache).2

end InodeCache

namespace Minix

open InodeCache

variable {s : Fs}

/-- The number of an inode that can be read is not zero. -/
theorem rawInode_always (ino : Nat) (s : Fs) : (rawInode ino).Always
    (fun r s' => s' = s ∧ ∀ found, r = .ok found → ino ≠ 0) s := by
  simp only [rawInode, always_bind]
  change Always (if ino = 0 ∨ s.super.ninodes < ino then _ else _) _ s
  split
  · exact ⟨rfl, by simp⟩
  · rename_i inside
    simp only [always_bind]
    intro r
    cases r with
    | error e => exact ⟨rfl, by simp⟩
    | ok block => exact ⟨rfl, fun _ _ => fun zero => inside (.inl zero)⟩

/-- What may happen to an inode of the list that is not in order is that it gets lost. -/
theorem lose_ordered {s₁ : Fs} {o : Nat} (ordered : s.Ordered) (member : o ∈ s.icache)
    (_ : s.HasLost) (quiet : s.QuietBut o s₁) (deleted : (s₁.inodes o).deleted = true) :
    (s₁.note (.lost o)).Ordered := by
  obtain ⟨inodes, rfl, kept⟩ := quiet
  have isLost : Fs.HasLost (Fs.note { s with inodes := inodes } (.lost o)) :=
    ⟨o, List.mem_append_right _ (.head _)⟩
  refine ⟨ordered.early, fun p lost => ?_, fun none => absurd isLost none, fun none => absurd isLost none⟩
  by_cases here : p = o
  · subst here
    exact ⟨member, deleted⟩
  · rcases List.mem_append.mp lost with old | new
    · obtain ⟨inList, gone⟩ := ordered.lost p old
      exact ⟨inList, (kept p here).deleted.trans gone⟩
    · exact absurd (FsEvent.lost.inj (List.mem_singleton.mp new)) here

/-- A live inode of the list is read although it is in the list. -/
theorem quietBut_ordered {s₁ : Fs} {o : Nat} (ordered : s.Ordered) (hasLost : s.HasLost)
    (live : (s.inodes o).deleted = false) (quiet : s.QuietBut o s₁) : s₁.Ordered := by
  obtain ⟨inodes, rfl, kept⟩ := quiet
  refine ⟨ordered.early, fun p lost => ?_, fun none => absurd hasLost none, fun none => absurd hasLost none⟩
  obtain ⟨member, deleted⟩ := ordered.lost p lost
  have other : p ≠ o := by
    rintro rfl
    rw [live] at deleted
    cases deleted
  exact ⟨member, (kept p other).deleted.trans deleted⟩

theorem iget_orders (ino : Nat) : Orders (iget ino) := by
  refine Orders.of_ordered fun s ordered => ?_
  simp only [iget, always_bind]
  refine (getInode_got ordered ino).mono fun o s₁ got => always_inode fun wasLive => ?_
  split
  · rename_i notNew
    rcases got with ⟨ordered, _⟩ | ⟨_, new⟩
    · exact ordered
    · simp [new] at notNew
  rename_i isNew
  simp only [always_bind]
  refine (rawInode_always ino s₁).mono ?_
  rintro r s₂ ⟨rfl, positive⟩
  cases r with
  | error e =>
    simp only [always_bind]
    refine ((quietBut_destroy o s₂).and (Steady.destroy_deletes o s₂)).mono ?_
    rintro _ s₃ ⟨quiet, deleted⟩
    rcases got with ⟨ordered, member⟩ | ⟨loading, _⟩
    · refine lose_ordered ordered member ?_ quiet deleted
      by_contra none
      exact isNew (by simp [(ordered.settled none).loaded o member])
    · exact (loading.quietBut quiet).lose deleted
  | ok found =>
    have nonzero := positive found rfl
    obtain ⟨block, raw⟩ := found
    simp only [always_bind]
    refine ((Quiet.load : Quiet (load block)) s₂).mono fun bytes s₃ loaded => always_setInode fun live => ?_
    refine always_setInode fun _ => (quiet_inodeMarked ino _).mono fun marked s₄ seen => ?_
    have notes : s₄.SameCache (s₄.note (.loaded ino marked)) :=
      ⟨rfl, rfl, rfl, fun p => by simp [Fs.note], fun _ => ⟨rfl, rfl, rfl⟩⟩
    refine notes.ordered (seen.sameCache.ordered ?_)
    set read := s₃.setInode o (readInode bytes raw ino) with isRead
    have quiet : s₂.QuietBut o (read.setInode o fun i => { i with new := false }) :=
      trans_of (Fs.QuietBut o) (loaded.but o) (trans_of (Fs.QuietBut o)
        (quietBut_setInode s₃ o _) (quietBut_setInode read o _))
    have here : (read.setInode o fun i => { i with new := false }).inodes o =
        { readInode bytes raw ino (s₃.inodes o) with new := false } := by
      simp [isRead, Fs.setInode]
    rcases got with ⟨ordered, member⟩ | ⟨loading, _⟩
    · have hasLost : s₂.HasLost := by
        by_contra none
        exact isNew (by simp [(ordered.settled none).loaded o member])
      exact quietBut_ordered ordered hasLost wasLive quiet
    · refine (loading.quietBut quiet).ordered nonzero ?_ ?_ ?_
      · rw [here]
        exact live
      · rw [here]
      · rw [here]
        rfl

theorem newInode_orders (mode : Nat) : Orders (newInode mode) := by
  refine Orders.of_ordered fun s ordered => ?_
  simp only [newInode, always_bind]
  refine (Orders.calm (quiet_findFreeInode _ _) s).mono fun found s₁ orders => ?_
  have ordered := orders ordered
  cases found with
  | none => exact ordered
  | some found =>
    simp only [always_bind]
    refine (Orders.calm Quiet.load s₁).mono fun bitmap s₂ orders => ?_
    have ordered := orders ordered
    split
    · exact ordered
    simp only [always_bind]
    change Always _ _ s₂
    split
    · exact ordered
    rename_i inside
    simp only [allocateInode, always_bind]
    set fresh : Fs := { s₂ with
      inodes := Function.update s₂.inodes s₂.allocated .fresh
      allocated := s₂.allocated + 1
      numInodeReferences := s₂.numInodeReferences + 1 } with isFresh
    have new : fresh.inodes s₂.allocated = .fresh := Function.update_self _ _ _
    have outside : s₂.allocated ∉ fresh.icache := fun member =>
      Nat.lt_irrefl _ (ordered.early _ member)
    have ordered' : fresh.Ordered := InodeCache.allocated_ordered ordered
    refine always_setInode fun _ => always_setInode fun _ => always_setInode fun _ => ?_
    set numbered := fresh.setInode s₂.allocated _ with isNumbered
    set dirty := numbered.setInode s₂.allocated Inode.setDirty with isDirty
    set complete := dirty.setInode s₂.allocated fun i => { i with new := false } with isComplete
    have quiet : fresh.QuietBut s₂.allocated complete := trans_of (Fs.QuietBut _)
      (quietBut_setInode fresh _ _) (trans_of (Fs.QuietBut _) (quietBut_setInode numbered _ _)
        (quietBut_setInode dirty _ _))
    have number : (complete.inodes s₂.allocated).ino = found.2 + found.1 * s.bitsPerBlock := by
      simp [isComplete, isDirty, isNumbered, Fs.setInode, Inode.setDirty]
    have loaded : (complete.inodes s₂.allocated).new = false := by
      simp [isComplete, Fs.setInode]
    refine InodeCache.insertInode_orders (ordered'.quietBut outside quiet) ?_ loaded ?_
    · exact Nat.lt_succ_self s₂.allocated
    · rw [number]
      exact fun zero => inside (.inl zero)

end Minix

theorem sameCache_put (o : Nat) (s : Fs) : (Inode.put o).Always (fun _ s' => s.SameCache s') s := by
  refine always_put fun _ => ?_
  unfold Fs.putDown
  split
  · refine ⟨rfl, rfl, rfl, fun _ => Iff.rfl, fun p => ?_⟩
    by_cases here : p = o
    · subst here
      simp only [Fs.setInode, Function.update_self]
      exact ⟨rfl, rfl, rfl⟩
    · simp only [Fs.setInode, Function.update_of_ne here]
      exact ⟨rfl, rfl, rfl⟩
  · exact ⟨rfl, rfl, rfl, fun _ => Iff.rfl, fun _ => ⟨rfl, rfl, rfl⟩⟩

theorem put_orders (o : Nat) : Orders (Inode.put o) := fun s =>
  (sameCache_put o s).mono fun _ _ => Fs.SameCache.ordered

theorem quiet_syncMaps (map : Nat → Nat) (n : Nat) : ∀ i, Quiet (Minix.syncMaps map n i) := by
  induction n with
  | zero => exact fun _ => .pure
  | succ n ih => exact fun i => Quiet.sync.bind fun _ => ih (i + 1)

theorem quiet_unfixMaps (map : Nat → Nat) (n : Nat) : ∀ i, Quiet (Minix.unfixMaps map n i) := by
  induction n with
  | zero => exact fun _ => .pure
  | succ n ih => exact fun i => Quiet.unfix.bind fun _ => ih (i + 1)

theorem quiet_fixMaps (blockno n : Nat) : ∀ i map, Quiet (Minix.fixMaps blockno n i map) := by
  induction n with
  | zero => exact fun _ _ => .pure
  | succ n ih =>
    exact fun i map => Quiet.fix.bind fun
      | .error _ => .pure
      | .ok _ => ih _ _

theorem quiet_minixUmount : Quiet Minix.umount :=
  Quiet.get.bind fun _ => (quiet_unfixMaps _ _ _).bind fun _ => (quiet_unfixMaps _ _ _).bind fun _ =>
    Quiet.unfix

theorem orders_syncFs : Orders VFS.syncFs := by
  have synced : Orders InodeCache.syncFsInodes := Orders.of_ordered fun s ordered =>
    InodeCache.syncLoop_orders s.icache ordered (InodeCache.ahead_all ordered)
  exact synced.bind fun _ => Orders.calm (Quiet.get.bind fun _ => (quiet_syncMaps _ _ _).bind fun _ =>
    quiet_syncMaps _ _ _)

theorem respected_orders : Respected Fs.Orders where
  quiet quiet := quiet.sameCache.ordered
  get o s := (InodeCache.sameCache_get o s).mono fun _ _ => Fs.SameCache.ordered
  put := put_orders
  iget := Minix.iget_orders
  newInode := Minix.newInode_orders
  released s o := Fs.SameCache.ordered ⟨rfl, rfl, rfl, fun p => by simp [Fs.note], fun _ => ⟨rfl, rfl, rfl⟩⟩

theorem lastingCalls_orders : LastingCalls fun _ p => Orders p where
  toCalls := respected_orders.calls (fun _ _ => Orders.modify fun _ =>
    ⟨rfl, rfl, rfl, fun _ => Iff.rfl, fun _ => ⟨rfl, rfl, rfl⟩⟩) orders_syncFs
  files _ := Orders.modify fun _ => ⟨rfl, rfl, rfl, fun _ => Iff.rfl, fun _ => ⟨rfl, rfl, rfl⟩⟩
  enter _ := Orders.modify fun _ => ⟨rfl, rfl, rfl, fun _ => Iff.rfl, fun _ => ⟨rfl, rfl, rfl⟩⟩

theorem InodeCache.orders_maybeEvictInodes : Orders InodeCache.maybeEvictInodes :=
  Orders.of_ordered fun s ordered => evictLoop_orders s.icache ordered (ahead_all ordered)

namespace Minix

theorem orders_igetRoot (memory : Bool) : Orders (igetRoot memory) :=
  .ite (iget_orders _) (InodeCache.orders_maybeEvictInodes.bind fun _ => .pure)

theorem orders_mountRoot (bits superBlock : Nat) (memory : Bool) (imap zmap : Nat → Nat) :
    Orders (mountRoot bits superBlock memory imap zmap) := by
  have reread : Orders (rereadSuper bits superBlock) :=
    (Orders.calm Quiet.load).bind fun _ => Orders.modify fun _ =>
      ⟨rfl, rfl, rfl, fun _ => Iff.rfl, fun _ => ⟨rfl, rfl, rfl⟩⟩
  refine (Orders.calm Quiet.load).bind fun _ => (Orders.calm Quiet.store).bind fun _ =>
    (Orders.calm Quiet.load).bind fun _ => (Orders.calm Quiet.store).bind fun _ =>
      reread.bind fun _ => (orders_igetRoot memory).bind fun r => ?_
  cases r with
  | error e => exact (Orders.calm quiet_minixUmount).bind fun _ => .pure
  | ok root =>
    refine (Orders.calm Quiet.inode).bind fun i => .ite ((Orders.modify fun s => ?_).bind
      fun _ => .pure) ((put_orders root).bind fun _ => (Orders.calm quiet_minixUmount).bind
        fun _ => .pure)
    exact ⟨rfl, rfl, rfl, fun _ => Iff.rfl, fun _ => ⟨rfl, rfl, rfl⟩⟩

theorem orders_mountMaps (bits superBlock : Nat) (memory : Allocations) (super : SuperBlock) :
    Orders (mountMaps bits superBlock memory super) := by
  have released : ∀ {e : Errno}, Orders (do
      unfix superBlock
      Pure.pure (.error e : Except Errno Unit)) := (Orders.calm Quiet.unfix).bind fun _ => .pure
  refine (Orders.modify fun s => ?_).bind fun _ => .ite released (.ite released
    ((Orders.calm (quiet_fixMaps _ _ _ _)).bind fun r => ?_))
  · exact ⟨rfl, rfl, rfl, fun _ => Iff.rfl, fun _ => ⟨rfl, rfl, rfl⟩⟩
  obtain ⟨failure, n, imap⟩ := r
  cases failure with
  | some e => exact (Orders.calm (quiet_unfixMaps _ _ _)).bind fun _ => released
  | none =>
    refine (Orders.calm (quiet_fixMaps _ _ _ _)).bind fun r => ?_
    obtain ⟨failure, n, zmap⟩ := r
    refine (Orders.modify fun s => ?_).bind fun _ => ?_
    · exact ⟨rfl, rfl, rfl, fun _ => Iff.rfl, fun _ => ⟨rfl, rfl, rfl⟩⟩
    cases failure with
    | some e =>
      exact (Orders.calm (quiet_unfixMaps _ _ _)).bind fun _ =>
        (Orders.calm (quiet_unfixMaps _ _ _)).bind fun _ => released
    | none => exact orders_mountRoot _ _ _ _ _

theorem orders_mount (bits : Nat) (memory : Allocations) : Orders (Minix.mount bits memory) := by
  refine (Orders.calm Quiet.fix).bind fun r => ?_
  cases r with
  | error e => exact .pure
  | ok superBlock =>
    exact (Orders.calm Quiet.load).bind fun _ => .ite ((Orders.calm Quiet.unfix).bind fun _ => .pure)
      (orders_mountMaps _ _ _ _)

end Minix

theorem orders_mount (bits : Nat) (memory : Minix.Allocations) : Orders (VFS.mount bits memory) := by
  refine (Orders.calm Quiet.get).bind fun s => .ite .pure (.ite .pure
    ((Minix.orders_mount bits memory).bind fun r => ?_))
  cases r with
  | error e => exact .pure
  | ok _ =>
    refine (Orders.modify fun s => ?_).bind fun _ => .pure
    exact ⟨rfl, rfl, rfl, fun _ => Iff.rfl, fun _ => ⟨rfl, rfl, rfl⟩⟩

theorem orders_umount : Orders VFS.umount := by
  have removed : Orders InodeCache.removeFsInodes := Orders.of_ordered fun s ordered =>
    InodeCache.removeLoop_orders s.icache ordered (InodeCache.ahead_all ordered)
  refine (Orders.calm Quiet.get).bind fun s => .ite .pure (.ite .pure ?_)
  cases s.cwd with
  | none => exact .ite (orders_syncFs.bind fun _ => Orders.calm Quiet.fault) (Orders.calm Quiet.fault)
  | some cwd =>
    refine orders_syncFs.bind fun _ => (put_orders cwd).bind fun _ => (Orders.modify fun s => ?_).bind
      fun _ => (put_orders _).bind fun _ => removed.bind fun _ => (Orders.calm quiet_minixUmount).bind
        fun _ => (Orders.modify fun s => ?_).bind fun _ => .pure
    · exact ⟨rfl, rfl, rfl, fun _ => Iff.rfl, fun _ => ⟨rfl, rfl, rfl⟩⟩
    · exact ⟨rfl, rfl, rfl, fun _ => Iff.rfl, fun _ => ⟨rfl, rfl, rfl⟩⟩

theorem ordered_initial : Fs.Ordered .initial :=
  ⟨by simp [Fs.initial], by simp [Fs.initial], fun _ => ⟨by simp [Fs.initial], by simp [Fs.initial],
    by simp [Fs.initial], by simp [Fs.initial], by simp [Fs.initial], by simp [Fs.initial]⟩, fun _ => rfl⟩

namespace VFS

theorem session_ordered {disk : Disk Errno} {image : Nat → Bytes} {ops : List Op} {results : List Result}
    {w : World Fs} (reached : session disk image ops = .ok (results, w)) : w.state.Ordered := by
  have made := lastingCalls_orders
  have orders : Orders (calls ops) := Made.calls (K := fun _ p => Orders p) orders_mount orders_umount ops
  have after : After disk (calls ops) (fun _ w => w.state.Ordered) (.initial image) :=
    ((orders Fs.initial).mono fun _ _ orders => orders ordered_initial).after
  exact after.of_run reached

/-- In every state that the calls can reach, the cache is in order exactly if no inode had to
be given up because it could not be read. -/
theorem cached_iff_none_lost (disk : Disk Errno) (image : Nat → Bytes) (ops : List Op)
    (results : List Result) (w : World Fs) (reached : session disk image ops = .ok (results, w)) :
    w.state.Cached ↔ ¬ w.state.HasLost :=
  (session_ordered reached).cached_iff

open SmallImage

/-- The entry `f` of the root directory names an inode that does not exist. -/
def withDangling : Nat → Bytes :=
  image (imap 7) (zmap 3) (record 1 dirMode 2 192 6 zeroes) (Minix.writeDirent rootEntries 2 17 nameF)

/-- The last state of a session, if it returns. -/
def lastState (disk : Disk Errno) (image : Nat → Bytes) (ops : List Op) : Option Fs :=
  (session disk image ops).toOption.map fun r => r.2.state

theorem reaches (disk : Disk Errno) (image : Nat → Bytes) (ops : List Op) (check : Fs → Bool)
    (checked : (lastState disk image ops).any check = true) :
    ∃ results w, session disk image ops = .ok (results, w) ∧ check w.state = true := by
  unfold lastState at checked
  cases reached : session disk image ops with
  | error f =>
    rw [reached] at checked
    cases checked
  | ok r =>
    rw [reached] at checked
    exact ⟨r.1, r.2, rfl, checked⟩

theorem stat_found_cached : ∃ results w,
    session ⟨false, neverFails⟩ withFile [.mount 10 .all, .stat nameF] = .ok (results, w) ∧
      w.state.Cached := by
  obtain ⟨results, w, reached, none⟩ := reaches ⟨false, neverFails⟩ withFile
    [.mount 10 .all, .stat nameF] (fun s => !s.log.any FsEvent.isLost) (by decide +kernel)
  refine ⟨results, w, reached, (cached_iff_none_lost _ _ _ _ _ reached).mpr ?_⟩
  rintro ⟨o, isLost⟩
  simp only [Bool.not_eq_true', List.any_eq_false] at none
  exact none _ isLost rfl

theorem stat_dangling_uncached : ∃ results w,
    session ⟨false, neverFails⟩ withDangling [.mount 10 .all, .stat nameF] = .ok (results, w) ∧
      ¬ w.state.Cached := by
  obtain ⟨results, w, reached, gone⟩ := reaches ⟨false, neverFails⟩ withDangling
    [.mount 10 .all, .stat nameF] (fun s => s.icache.any fun o => (s.inodes o).deleted)
    (by decide +kernel)
  refine ⟨results, w, reached, fun cached => ?_⟩
  obtain ⟨o, member, deleted⟩ := List.any_eq_true.mp gone
  rw [cached.live o member] at deleted
  cases deleted

end VFS

end MPStuBS
