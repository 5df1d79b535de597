import MPStuBS.EndingSteps
import MPStuBS.FileReading
import MPStuBS.QuietSteps

/-! Path resolution comes to an end, whatever the symbolic links refer to, and gives up on
those that are nested too deeply. -/
namespace MPStuBS

namespace VFS

open FsM

/-- What a walk does with a symbolic link. -/
abbrev Resolver := Nat → Nat → FsM (Except Errno Nat)

/-- `resolve_symlink` as the source counts the depth, where `limit` is done at `MAX_DEPTH`.
Its calls may be nested as deep as there are levels. -/
def resolveSymlinkAt (limit : FsM (Except Errno Nat)) : Nat → Nat → Resolver
  | 0, _, _, _ => fault .endless
  | levels + 1, depth, symlink, curDir =>
    if maxDepth ≤ depth then limit
    else do
      match ← Filesystem.getLink symlink with
      | .error e => pure (.error e)
      | .ok link =>
        pathwalkStep123With (resolveSymlinkAt limit levels (depth + 1)) (link.takeWhile (· != 0))
          (some curDir) true

end VFS

open Prog FsM

namespace Filesystem

open Minix

/-- What is left to read of a file whose end has not been reached. -/
theorem bytesLeft_pos {size at_ : Int} (before : ¬ u64 size ≤ u64 at_) : 0 < u64 (size - at_) := by
  unfold u64 at *
  omega

variable {disk : Disk Errno}

theorem meets_inode_live {w : World Fs} {ptr : Nat} {allowed : FsFault → Prop}
    {post : Inode → World Fs → Prop} (gone : allowed .deletedInode)
    (live : post (w.state.inodes ptr) w) : Meets disk allowed (FsM.inode ptr) post w := by
  unfold FsM.inode
  simp only [meets_bind, meets_get]
  split
  · exact gone
  · exact live

/-- Every round of the loop reads at least one byte. -/
theorem readLoop_grows (ptr count : Nat) (pos : Int) (fuel : Nat) : ∀ {w : World Fs} {block offset done},
    offset < w.state.blocksize → done.length ≤ count → count < done.length + fuel →
    Meets disk (· ≠ .endless) (readLoop ptr count pos fuel block offset done) (fun r _ =>
      ∀ bytes, r = .ok bytes → done.length ≤ bytes.length ∧ (done.length < count →
        u64 (pos + done.length) < u64 (w.state.inodes ptr).size → done.length < bytes.length)) w := by
  induction fuel with
  | zero =>
    intro w block offset done _ most enough
    omega
  | succ fuel ih =>
    intro w block offset done inside most enough
    simp only [readLoop, meets_bind, meets_get]
    refine meets_inode_live FsFault.noConfusion ?_
    split
    · rename_i stop
      refine meets_pure.mpr ?_
      rintro bytes ⟨⟩
      exact ⟨Nat.le_refl _, fun less before => by omega⟩
    rename_i more
    obtain ⟨less, before⟩ := not_or.mp more
    simp only [meets_bind]
    refine (ends_getBlock ptr block disk w).mono fun r w₁ _ => ?_
    cases r with
    | error e =>
      refine meets_pure.mpr ?_
      rintro bytes ⟨⟩
    | ok blockno =>
      simp only [meets_bind]
      refine (Ends.fix disk w₁).mono fun r w₂ _ => ?_
      cases r with
      | error e =>
        refine meets_pure.mpr ?_
        rintro bytes ⟨⟩
      | ok b =>
        simp only [meets_bind]
        refine (Ends.load disk w₂).mono fun bytes w₃ _ => ?_
        simp only [meets_bind, meets_unfix]
        have left : 0 < u64 ((w.state.inodes ptr).size - pos - done.length) := by
          rw [Int.sub_sub]
          exact bytesLeft_pos before
        refine (ih (Nat.two_pow_pos _) ?_ ?_).mono fun r w₄ grows all isAll => ?_
        · rw [List.length_append, length_take]
          omega
        · rw [List.length_append, length_take]
          omega
        · have longer := (grows all isAll).1
          rw [List.length_append, length_take] at longer
          exact ⟨by omega, fun _ _ => by omega⟩

theorem u64_lt_of_nonneg {x : Int} {n : Nat} (nonneg : 0 ≤ x) (less : x < n) : u64 x < n := by
  unfold u64
  omega

theorem read_grows (ptr count : Nat) (pos : Int) (w : World Fs) :
    Meets disk (· ≠ .endless) (read ptr count pos) (fun r _ => ∀ bytes, r = .ok bytes → 0 < count →
      u64 pos < u64 (w.state.inodes ptr).size → 0 < bytes.length) w := by
  simp only [read, meets_bind, meets_get]
  have positive : (0 : Int) < w.state.blocksize := Int.natCast_pos.mpr (Nat.two_pow_pos _)
  have inside : u64 (pos % w.state.blocksize) < w.state.blocksize :=
    u64_lt_of_nonneg (Int.emod_nonneg _ (Int.ne_of_gt positive)) (Int.emod_lt_of_pos _ positive)
  refine (readLoop_grows ptr count pos (count + 1) inside (Nat.zero_le _) (by simp)).mono
    fun r w' grows bytes isBytes some before => (grows bytes isBytes).2 some ?_
  simpa using before

/-- Every round of the loop gets at least one byte of the target. -/
theorem ends_getLinkLoop (ptr size fuel : Nat) : ∀ {w : World Fs} {done},
    u64 (w.state.inodes ptr).size = size → size < done.length + fuel → done.length ≤ size →
    Meets disk (· ≠ .endless) (getLinkLoop ptr size fuel done) (fun _ _ => True) w := by
  induction fuel with
  | zero =>
    intro w done _ enough most
    omega
  | succ fuel ih =>
    intro w done isSize enough most
    have small : size < 18446744073709551616 := by
      rw [← isSize]
      unfold u64
      omega
    simp only [getLinkLoop, meets_bind]
    have same : After disk (read ptr (size - done.length) done.length) (fun _ w' => w'.state = w.state) w :=
      ((has_read trivial _ _ _).same w.state).after
    refine ((read_grows _ _ _ w).and_after same).mono ?_
    rintro r w' ⟨grows, state⟩
    cases r with
    | error e => trivial
    | ok bytes =>
      dsimp only
      split
      · trivial
      · rename_i short
        rw [List.length_append] at short
        have some : 0 < bytes.length := by
          refine grows bytes rfl (by omega) ?_
          rw [isSize]
          unfold u64
          omega
        exact ih (state ▸ isSize) (by rw [List.length_append]; omega) (by rw [List.length_append]; omega)

theorem ends_getLink (ptr : Nat) : Ends (getLink ptr) := by
  intro disk w
  simp only [getLink, meets_bind]
  refine meets_inode_live FsFault.noConfusion ?_
  split
  · trivial
  split
  · trivial
  · exact ends_getLinkLoop _ _ _ rfl (by simp) (Nat.zero_le _)

end Filesystem

namespace VFS

theorem next_shorter (s : PathName) (slashed : hasSlash s = true) :
    (skipSlashes (s.drop (component s).length)).length < s.length := by
  induction s with
  | nil => cases slashed
  | cons c rest ih =>
    by_cases isSlash : c = slash
    · subst isSlash
      have first : component (slash :: rest) = [] := by simp [component]
      rw [first]
      simpa [skipSlashes] using Nat.lt_succ_of_le (List.dropWhile_sublist _).length_le
    · have first : component (c :: rest) = c :: component rest := by simp [component, isSlash]
      have later : hasSlash rest = true := by
        simpa [hasSlash, Ne.symm isSlash] using slashed
      rw [first, List.length_cons, List.drop_succ_cons, List.length_cons]
      exact Nat.lt_succ_of_lt (ih later)

theorem ends_pathwalkStep1 (pathname : PathName) (cwd : Option Nat) :
    Ends (pathwalkStep1 pathname cwd) := by
  refine Ends.get.bind fun s => .ite .pure ?_
  cases pathname with
  | nil => exact .pure
  | cons c rest => exact (Ends.incRef _).bind fun _ => .pure

section Walk

variable {resolve : Resolver} (ends : ∀ inode curDir, Ends (resolve inode curDir))
include ends

theorem ends_follow (inode curDir : Nat) (isLnk : Bool) : Ends (follow resolve inode curDir isLnk) :=
  .ite ((ends _ _).bind fun _ => (Ends.put _).bind fun _ => .pure) .pure

/-- What remains of the path gets shorter with every component. -/
theorem ends_pathwalkStep2 (fuel : Nat) :
    ∀ path : Path, path.pathname.length < fuel → Ends (pathwalkStep2 resolve fuel path) := by
  induction fuel with
  | zero => exact fun _ enough => absurd enough (Nat.not_lt_zero _)
  | succ fuel ih =>
    intro path enough
    simp only [pathwalkStep2]
    split
    · exact .pure
    rename_i slashed
    have shorter := next_shorter path.pathname (by simpa using slashed)
    have again : ∀ dir, Ends (pathwalkStep2 resolve fuel
        ⟨dir, skipSlashes (path.pathname.drop (component path.pathname).length)⟩) := fun dir =>
      ih _ (Nat.lt_of_lt_of_le shorter (Nat.le_of_lt_succ enough))
    refine .ite .pure (.ite (again _) (Ends.get.bind fun s => .ite (again _)
      ((Minix.ends_lookup _ _).bind fun r => ?_)))
    match r with
    | .error e => exact (Ends.put _).bind fun _ => .pure
    | .ok none => exact (Ends.put _).bind fun _ => .pure
    | .ok (some inode) =>
      refine Ends.inode.bind fun i => (ends_follow ends _ _ _).bind fun target =>
        (Ends.put _).bind fun _ => ?_
      cases target with
      | error e => exact .pure
      | ok inode => exact Ends.inode.bind fun i => .ite (again _) ((Ends.put _).bind fun _ => .pure)

theorem ends_pathwalkStep3 (path : Path) (followSymlink : Bool) :
    Ends (pathwalkStep3 resolve path followSymlink) := by
  refine .ite .pure ((Minix.ends_lookup _ _).bind fun r => ?_)
  match r with
  | .error e => exact (Ends.put _).bind fun _ => .pure
  | .ok none => exact (Ends.put _).bind fun _ => .pure
  | .ok (some inode) =>
    refine Ends.inode.bind fun i => (ends_follow ends _ _ _).bind fun target =>
      (Ends.put _).bind fun _ => ?_
    cases target with
    | error e => exact .pure
    | ok inode => exact Ends.inode.bind fun i => .ite ((Ends.put _).bind fun _ => .pure) .pure

theorem ends_pathwalkStep12With (pathname : PathName) (cwd : Option Nat) :
    Ends (pathwalkStep12With resolve pathname cwd) :=
  (ends_pathwalkStep1 _ _).bind fun
    | .error _ => .pure
    | .ok path => ends_pathwalkStep2 ends _ path (Nat.lt_succ_self _)

theorem ends_pathwalkStep123With (pathname : PathName) (cwd : Option Nat) (followFinal : Bool) :
    Ends (pathwalkStep123With resolve pathname cwd followFinal) :=
  (ends_pathwalkStep12With ends _ _).bind fun
    | .error _ => .pure
    | .ok path => ends_pathwalkStep3 ends path followFinal

end Walk

theorem ends_resolveSymlink (depth : Nat) : ∀ symlink curDir, Ends (resolveSymlink depth symlink curDir) := by
  induction depth with
  | zero => exact fun _ _ => .pure
  | succ depth ih =>
    exact fun symlink curDir => (Filesystem.ends_getLink symlink).bind fun
      | .error _ => .pure
      | .ok _ => ends_pathwalkStep123With ih _ _ true

/-- The calls are never nested deeper than the greatest depth. -/
theorem resolveSymlinkAt_eq (levels : Nat) : ∀ depth, depth ≤ maxDepth → maxDepth < depth + levels →
    resolveSymlinkAt (Pure.pure (.error .eloop)) levels depth = resolveSymlink (maxDepth - depth) := by
  induction levels with
  | zero =>
    intro depth most enough
    omega
  | succ levels ih =>
    intro depth most enough
    funext symlink curDir
    simp only [resolveSymlinkAt]
    split
    · rw [Nat.sub_eq_zero_of_le ‹_›]
      rfl
    · rename_i less
      obtain ⟨left, eq⟩ : ∃ left, maxDepth - depth = left + 1 := ⟨maxDepth - depth - 1, by omega⟩
      rw [ih (depth + 1) (by omega) (by omega), eq, show maxDepth - (depth + 1) = left by omega]
      rfl

/-- The second program does what the first one does, unless the first one does not end;
then it returns nothing but such results. -/
def Departs {α : Type} (out : α → Prop) (p p' : FsM α) : Prop := ∀ disk w,
  p.run disk w ≠ .error .endless ∧ p'.run disk w = p.run disk w ∨
    p.run disk w = .error .endless ∧ After disk p' (fun a _ => out a) w

namespace Departs

variable {α β : Type} {out : α → Prop} {out' : β → Prop}

theorem of_ends {p : FsM α} (ends : Ends p) : Departs out p p := fun disk w =>
  .inl ⟨ends.run disk w, rfl⟩

theorem bind {p p' : FsM α} {k k' : α → FsM β} (fst : Departs out p p')
    (snd : ∀ a, Departs out' (k a) (k' a))
    (gone : ∀ a, out a → ∀ disk w, After disk (k' a) (fun b _ => out' b) w) :
    Departs out' (p >>= k) (p' >>= k') := by
  intro disk w
  have split : ∀ (q : FsM α) (l : α → FsM β), (q >>= l).run disk w =
      (q.run disk w).bind fun r => (l r.1).run disk r.2 := fun q l => run_bind q l w
  rcases fst disk w with ⟨ended, same⟩ | ⟨endless, away⟩
  · cases ran : p.run disk w with
    | error f =>
      refine .inl ?_
      rw [split, split, same, ran]
      exact ⟨fun endless => ended (ran.trans (congrArg Except.error (Except.error.inj endless))), rfl⟩
    | ok r =>
      have returned : p'.run disk w = .ok (r.1, r.2) := same.trans ran
      rcases snd r.1 disk r.2 with ⟨ended, same⟩ | ⟨endless, away⟩
      · refine .inl ?_
        rw [split, split, returned, ran]
        exact ⟨ended, same⟩
      · refine .inr ⟨?_, meets_bind.mpr ((meets_of_run returned).mpr away)⟩
        rw [split, ran]
        exact endless
  · refine .inr ⟨?_, meets_bind.mpr (away.mono fun a w' isOut => gone a isOut disk w')⟩
    rw [split, endless]
    rfl

theorem andThen {p : FsM α} {k k' : α → FsM β} (ends : Ends p)
    (next : ∀ a, Departs out' (k a) (k' a)) : Departs out' (p >>= k) (p >>= k') := by
  have same : Departs (fun _ => False) p p := .of_ends ends
  exact same.bind next fun _ none => none.elim

theorem ite {c : Prop} [Decidable c] {p p' q q' : FsM α} (fst : Departs out p p')
    (snd : Departs out q q') : Departs out (if c then p else q) (if c then p' else q') := by
  split
  · exact fst
  · exact snd

end Departs

/-- The walk was given up at a symbolic link. -/
def Loops {α : Type} (r : Except Errno α) : Prop := r = .error .eloop

/-- Resolvers of which the first does not end at the greatest depth, where the second gives up. -/
def GivesUp (resolve resolve' : Resolver) : Prop :=
  ∀ inode curDir, Departs Loops (resolve inode curDir) (resolve' inode curDir)

theorem after_passes {α β : Type} {p : FsM α} {r : Except Errno β} (loops : Loops r) (disk : Disk Errno)
    (w : World Fs) : After disk (p >>= fun _ => Pure.pure r) (fun r _ => Loops r) w :=
  meets_bind.mpr ((always_true p w.state).after.mono fun _ _ _ => loops)

section Departs

variable {resolve resolve' : Resolver} (gives : GivesUp resolve resolve')
include gives

theorem departs_follow (inode curDir : Nat) (isLnk : Bool) :
    Departs Loops (follow resolve inode curDir isLnk) (follow resolve' inode curDir isLnk) :=
  .ite ((gives inode curDir).bind
    (fun _ => .of_ends ((Ends.put _).bind fun _ => .pure))
    fun _ loops disk w => after_passes loops disk w) (.of_ends .pure)

theorem departs_pathwalkStep2 (fuel : Nat) : ∀ path : Path, path.pathname.length < fuel →
    Departs Loops (pathwalkStep2 resolve fuel path) (pathwalkStep2 resolve' fuel path) := by
  induction fuel with
  | zero => exact fun _ enough => absurd enough (Nat.not_lt_zero _)
  | succ fuel ih =>
    intro path enough
    simp only [pathwalkStep2]
    split
    · exact .of_ends .pure
    rename_i slashed
    have shorter := next_shorter path.pathname (by simpa using slashed)
    have again : ∀ dir, Departs Loops
        (pathwalkStep2 resolve fuel ⟨dir, skipSlashes (path.pathname.drop (component path.pathname).length)⟩)
        (pathwalkStep2 resolve' fuel ⟨dir, skipSlashes (path.pathname.drop (component path.pathname).length)⟩) :=
      fun dir => ih _ (Nat.lt_of_lt_of_le shorter (Nat.le_of_lt_succ enough))
    refine .ite (.of_ends .pure) (.ite (again _) (.andThen Ends.get fun s => .ite (again _)
      (.andThen (Minix.ends_lookup _ _) fun r => ?_)))
    match r with
    | .error e => exact .of_ends ((Ends.put _).bind fun _ => .pure)
    | .ok none => exact .of_ends ((Ends.put _).bind fun _ => .pure)
    | .ok (some inode) =>
      refine .andThen Ends.inode fun i => (departs_follow gives _ _ _).bind (fun target => ?_)
        fun target loops disk w => ?_
      · refine .andThen (Ends.put _) fun _ => ?_
        cases target with
        | error e => exact .of_ends .pure
        | ok inode =>
          exact .andThen Ends.inode fun i => .ite (again _) (.of_ends ((Ends.put _).bind fun _ => .pure))
      · obtain rfl := loops
        exact after_passes rfl disk w

theorem departs_pathwalkStep3 (path : Path) (followSymlink : Bool) : Departs Loops
    (pathwalkStep3 resolve path followSymlink) (pathwalkStep3 resolve' path followSymlink) := by
  refine .ite (.of_ends .pure) (.andThen (Minix.ends_lookup _ _) fun r => ?_)
  match r with
  | .error e => exact .of_ends ((Ends.put _).bind fun _ => .pure)
  | .ok none => exact .of_ends ((Ends.put _).bind fun _ => .pure)
  | .ok (some inode) =>
    refine .andThen Ends.inode fun i => (departs_follow gives _ _ _).bind (fun target => ?_)
      fun target loops disk w => ?_
    · refine .andThen (Ends.put _) fun _ => ?_
      cases target with
      | error e => exact .of_ends .pure
      | ok inode =>
        exact .andThen Ends.inode fun i => .of_ends (.ite ((Ends.put _).bind fun _ => .pure) .pure)
    · obtain rfl := loops
      exact after_passes rfl disk w

theorem departs_pathwalkStep12With (pathname : PathName) (cwd : Option Nat) : Departs Loops
    (pathwalkStep12With resolve pathname cwd) (pathwalkStep12With resolve' pathname cwd) := by
  refine .andThen (ends_pathwalkStep1 _ _) fun r => ?_
  cases r with
  | error e => exact .of_ends .pure
  | ok path => exact departs_pathwalkStep2 gives _ path (Nat.lt_succ_self _)

theorem departs_pathwalkStep123With (pathname : PathName) (cwd : Option Nat) (followFinal : Bool) :
    Departs Loops (pathwalkStep123With resolve pathname cwd followFinal)
      (pathwalkStep123With resolve' pathname cwd followFinal) := by
  refine (departs_pathwalkStep12With gives pathname cwd).bind (fun r => ?_) fun r loops disk w => ?_
  · cases r with
    | error e => exact .of_ends .pure
    | ok path => exact departs_pathwalkStep3 gives path followFinal
  · obtain rfl := loops
    exact meets_pure.mpr rfl

end Departs

theorem givesUp_at (levels : Nat) : ∀ depth, maxDepth < depth + levels →
    GivesUp (resolveSymlinkAt (FsM.fault .endless) levels depth) (resolveSymlink (maxDepth - depth)) := by
  induction levels with
  | zero =>
    intro depth enough symlink curDir
    have deepest : maxDepth - depth = 0 := by omega
    rw [deepest]
    exact fun disk w => .inr ⟨rfl, rfl⟩
  | succ levels ih =>
    intro depth enough symlink curDir
    simp only [resolveSymlinkAt]
    split
    · rename_i most
      rw [Nat.sub_eq_zero_of_le most]
      exact fun disk w => .inr ⟨rfl, rfl⟩
    · obtain ⟨left, eq⟩ : ∃ left, maxDepth - depth = left + 1 := ⟨maxDepth - depth - 1, by omega⟩
      have next := ih (depth + 1) (by omega)
      rw [show maxDepth - (depth + 1) = left by omega] at next
      rw [eq]
      refine .andThen (Filesystem.ends_getLink symlink) fun r => ?_
      cases r with
      | error e => exact .of_ends .pure
      | ok link => exact departs_pathwalkStep123With next _ _ true

/-- A walk with the limit on symbolic links: it ends, with calls of `resolve_symlink` that are
nested no deeper than `MAX_DEPTH`, and one that comes to a further link gives up. -/
structure WalkEnds {α : Type} (disk : Disk Errno) (w : World Fs)
    (walk : Resolver → FsM (Except Errno α)) (code : FsM (Except Errno α)) : Prop where
  terminates : code.run disk w ≠ .error .endless
  nested : ∀ levels, maxDepth < levels →
    (walk (resolveSymlinkAt (Pure.pure (.error .eloop)) levels 0)).run disk w = code.run disk w
  refused : ∀ levels, maxDepth < levels →
    (walk (resolveSymlinkAt (FsM.fault .endless) levels 0)).run disk w = .error .endless →
    After disk code (fun r _ => r = .error .eloop) w

theorem walkEnds {α : Type} {disk : Disk Errno} {w : World Fs} {walk : Resolver → FsM (Except Errno α)}
    {code : FsM (Except Errno α)} (ends : Ends (walk (resolveSymlink maxDepth)))
    (departs : ∀ {resolve resolve' : Resolver}, GivesUp resolve resolve' →
      Departs Loops (walk resolve) (walk resolve'))
    (same : code.run disk w = (walk (resolveSymlink maxDepth)).run disk w) : WalkEnds disk w walk code := by
  refine ⟨?_, fun levels enough => ?_, fun levels enough endless => ?_⟩
  · rw [same]
    exact ends.run disk w
  · rw [resolveSymlinkAt_eq levels 0 (Nat.zero_le _) (by omega), same]
    rfl
  · rcases departs (givesUp_at levels 0 (by omega)) disk w with ⟨ended, _⟩ | ⟨_, away⟩
    · exact absurd endless ended
    · unfold After Meets at *
      rw [same]
      exact away

theorem pathwalk_ends (disk : Disk Errno) (w : World Fs) (pathname : PathName) (followFinal : Bool) :
    WalkEnds disk w (fun resolve => pathwalkStep12With resolve pathname w.state.cwd)
        (pathwalkStep12 pathname) ∧
      WalkEnds disk w (fun resolve => pathwalkStep123With resolve pathname w.state.cwd followFinal)
        (pathwalkStep123 pathname followFinal) :=
  ⟨walkEnds (ends_pathwalkStep12With (ends_resolveSymlink _) _ _)
      (fun gives => departs_pathwalkStep12With gives _ _) rfl,
    walkEnds (ends_pathwalkStep123With (ends_resolveSymlink _) _ _ _)
      (fun gives => departs_pathwalkStep123With gives _ _ _) rfl⟩

open SmallImage

/-- A volume on which `g` is a symbolic link to itself. -/
@[irreducible] def looped : World Fs :=
  match session ⟨false, neverFails⟩ withFile [.mount 10 .all, .symlink nameG nameG] with
  | .ok (_, w) => w
  | .error _ => .initial withFile

theorem error_of_map {ε α β : Type} {f : ε} {r : Except ε α} {g : α → β} (failed : r.map g = .error f) : r = .error f := by
  cases r with
  | error _ => exact congrArg Except.error (Except.error.inj failed)
  | ok _ => cases failed

/-- The walk along it comes to one link more than may be nested, and gives up. -/
theorem pathwalk_looped :
    After ⟨false, neverFails⟩ (pathwalkStep123 nameG true) (fun r _ => r = .error .eloop) looped ∧
      ((pathwalkStep123 nameG true).run ⟨false, neverFails⟩ looped).map Prod.fst = .ok (.error .eloop) := by
  have further : ((pathwalkStep123With (resolveSymlinkAt (FsM.fault .endless) (maxDepth + 1) 0) nameG looped.state.cwd
      true).run ⟨false, neverFails⟩ looped).map Prod.fst = .error .endless := by
    decide +kernel
  have refused := (pathwalk_ends ⟨false, neverFails⟩ looped nameG true).2.refused (maxDepth + 1) (Nat.lt_succ_self _)
  constructor
  · exact refused (error_of_map further)
  · decide +kernel

end VFS
end MPStuBS
