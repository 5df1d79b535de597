import MPStuBS.FsImage
import MPStuBS.TreeWalks
import Mathlib.Logic.Function.Iterate

/-! Trees of directories in which every directory has one name, and the paths that climb in them. -/
namespace MPStuBS

namespace FileTree

universe u v

variable {ι : Type u} {ν : Type v} {t : FileTree ι ν} {d i : ι} {expand : ι → ι → Option ι} {last : Bool}

def parentOf (t : FileTree ι ν) (d : ι) : ι :=
  match t.node d with
  | some (.dir parent _) => parent
  | _ => d

theorem WellFormed.isDir_root (wellFormed : t.WellFormed) : t.isDir t.root = true := by
  obtain ⟨entries, node⟩ := wellFormed.root
  exact isDir_iff.mpr ⟨_, _, node⟩

@[simp] theorem WellFormed.parentOf_root (wellFormed : t.WellFormed) : t.parentOf t.root = t.root := by
  obtain ⟨entries, node⟩ := wellFormed.root
  simp [parentOf, node]

theorem WellFormed.iterate_root (wellFormed : t.WellFormed) (n : Nat) : t.parentOf^[n] t.root = t.root :=
  Function.iterate_fixed wellFormed.parentOf_root n

theorem WellFormed.isDir_parentOf (wellFormed : t.WellFormed) (isDir : t.isDir d = true) : t.isDir (t.parentOf d) = true := by
  obtain ⟨parent, entries, node⟩ := isDir_iff.mp isDir
  have up := wellFormed.parent d parent entries node
  simpa [parentOf, node] using up

theorem WellFormed.isDir_iterate (wellFormed : t.WellFormed) (isDir : t.isDir d = true) (n : Nat) :
    t.isDir (t.parentOf^[n] d) = true := by
  induction n with
  | zero => exact isDir
  | succ n ih =>
    rw [Function.iterate_succ_apply']
    exact wellFormed.isDir_parentOf ih

theorem enter_up (isDir : t.isDir d = true) : t.enter d .up = some (t.parentOf d) := by
  obtain ⟨parent, entries, node⟩ := isDir_iff.mp isDir
  simp [enter, parentOf, node]

theorem enter_isDir_stay (isDir : t.isDir d = true) : t.enter d .stay = some d := by
  obtain ⟨parent, entries, node⟩ := isDir_iff.mp isDir
  simp [enter, node]

theorem expand_isDir (isDir : t.isDir i = true) (depth : Nat) (dir : ι) : t.expand depth dir i = some i := by
  obtain ⟨parent, entries, node⟩ := isDir_iff.mp isDir
  exact expand_self fun target => by simp [node]

/-- So many moves to the parent lead to an ancestor. -/
theorem walk_ups (wellFormed : t.WellFormed) (depth k : Nat) : ∀ {d}, t.isDir d = true →
    t.walk (t.expand depth) last d (List.replicate k .up) = some (t.parentOf^[k] d) := by
  induction k with
  | zero => exact fun _ => rfl
  | succ k ih =>
    intro d isDir
    have up := wellFormed.isDir_parentOf isDir
    rw [List.replicate_succ, Function.iterate_succ_apply]
    cases k with
    | zero =>
      rw [List.replicate_zero, walk, enter_up isDir, Option.bind_some, expand_isDir up]
      split <;> rfl
    | succ k =>
      rw [walk.eq_3 _ _ _ _ _ _ (by simp), enter_up isDir, Option.bind_some, expand_isDir up, Option.bind_some, if_pos up]
      exact ih up

end FileTree

namespace VFS

open FileTree FileSystemImage Minix

variable {t : SlotTree} {d x : Nat} {name : PathName}

/-- The path to an ancestor: `../` so many times. -/
def upPath : Nat → PathName
  | 0 => []
  | k + 1 => upPath k ++ dotDotSlash

theorem length_upPath (k : Nat) : (upPath k).length = 3 * k := by
  induction k with
  | zero => rfl
  | succ k ih => simp [upPath, dotDotSlash, ih]; omega

theorem upPath_cons (k : Nat) : upPath (k + 1) = dotDotSlash ++ upPath k := by
  induction k with
  | zero => rfl
  | succ k ih =>
    rw [upPath, ih, List.append_assoc]
    exact congrArg _ ih

theorem noNull_upPath (k : Nat) : 0 ∉ upPath k := by
  induction k with
  | zero => simp [upPath]
  | succ k ih => simp [upPath, dotDotSlash, ih]

theorem pieces_upPath (k : Nat) : pieces (upPath k) = List.replicate k dotDotName := by
  induction k with
  | zero => rfl
  | succ k ih =>
    rw [upPath_cons, List.replicate_succ, ← ih]
    have slashed : hasSlash (dotDotSlash ++ upPath k) = true := by simp [hasSlash, dotDotSlash, slash]
    have first : component (dotDotSlash ++ upPath k) = dotDotName := by
      simp [component, dotDotSlash, dotDotName, slash]
    rw [pieces_of_hasSlash slashed (by simp [first, dotDotName]), first]
    have rest : next (dotDotSlash ++ upPath k) = skipSlashes (upPath k) := by
      rw [next, first]
      simp [dotDotSlash, dotDotName, slash, skipSlashes]
    rw [rest, pieces_skipSlashes]

theorem routeOf_upPath (k : Nat) : routeOf (upPath (k + 1)) = ⟨false, List.replicate (k + 1) .up, true⟩ := by
  unfold routeOf
  rw [pieces_upPath, List.map_replicate]
  congr 1
  · simp [upPath_cons, dotDotSlash, slash]
  · simp [upPath, dotDotSlash, slash]

theorem resolve_upPath (wellFormed : t.WellFormed) (isDir : t.isDir d = true) (depth k : Nat) (follow : Bool) :
    t.resolve depth d (routeOf (upPath (k + 1))) follow = some (t.parentOf^[k + 1] d) := by
  rw [routeOf_upPath]
  unfold FileTree.resolve FileTree.lead
  rw [if_neg (by simp)]
  dsimp only
  rw [if_neg (by simp), walk_ups wellFormed depth _ isDir, Option.bind_some, wellFormed.isDir_iterate isDir]
  rfl

theorem resolve_dot (isDir : t.isDir d = true) (depth : Nat) (follow : Bool) :
    t.resolve depth d (routeOf dotName) follow = some d := by
  have route : routeOf dotName = ⟨false, [.stay], false⟩ := by decide
  rw [route]
  simp [FileTree.resolve, FileTree.lead, FileTree.walk, enter_isDir_stay isDir, expand_isDir isDir]

theorem resolve_slash (wellFormed : t.WellFormed) (depth : Nat) (follow : Bool) :
    t.resolve depth d (routeOf [slash]) follow = some t.root := by
  have route : routeOf [slash] = ⟨true, [], true⟩ := by decide
  rw [route]
  simp [FileTree.resolve, FileTree.lead, FileTree.walk, wellFormed.isDir_root]

/-- The path with a slash and a name leads to the directory that the root has under the name. -/
theorem resolve_child (some : name ≠ []) (noSlash : slash ∉ name) (isDir : t.isDir x = true)
    (entered : t.enter t.root (moveOf name) = Option.some x) (depth : Nat) :
    t.resolve depth d (routeOf (slash :: name)) true = Option.some x := by
  have plain : hasSlash name = false := by simpa [hasSlash] using noSlash
  have route : routeOf (slash :: name) = ⟨true, [moveOf name], false⟩ := by
    unfold routeOf
    rw [pieces_slash, pieces_of_not_hasSlash plain some]
    have last := getLast_of_not_hasSlash plain
    congr 1
    rw [beq_eq_false_iff_ne]
    cases name with
    | nil => exact absurd rfl some
    | cons c rest => rwa [List.getLast?_cons_cons]
  rw [route]
  simp [FileTree.resolve, FileTree.lead, FileTree.walk, entered, expand_isDir isDir]

end VFS
end MPStuBS
