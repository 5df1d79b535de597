import MPStuBS.FileTree
import MPStuBS.LegalNames
import MPStuBS.PathTermination

/-! The route that a path stands for, and how the steps of the path walk take the path apart. -/
namespace MPStuBS.VFS

open FileTree

/-- What stands between slashes. -/
def pieces (path : PathName) : List PathName := (path.splitOn slash).filter (· ≠ [])

def moveOf (name : PathName) : FileTree.Move PathName :=
  if name = Minix.dotName then .stay else if name = Minix.dotDotName then .up else .down name

/-- Runs of slashes count as one, and a slash at the end asks for a directory. -/
def routeOf (path : PathName) : Route PathName :=
  ⟨path.head? == some slash, (pieces path).map moveOf, path.getLast? == some slash⟩

example : routeOf [47, 97, 47, 47, 46, 46, 47] = ⟨true, [.down [97], .up], true⟩ := by decide

/-- The path after its first name and the slashes behind it. -/
def next (path : PathName) : PathName := skipSlashes (path.drop (component path).length)

@[simp] theorem pieces_nil : pieces [] = [] := rfl

theorem pieces_slash (rest : PathName) : pieces (slash :: rest) = pieces rest := by
  have split := List.splitOn_append_cons_self (a := slash) [] rest
  rw [List.nil_append] at split
  simp [pieces, split]

theorem skipSlashes_cons (c : UInt8) (rest : PathName) :
    skipSlashes (c :: rest) = if c = slash then skipSlashes rest else c :: rest := by
  by_cases isSlash : c = slash <;> simp [skipSlashes, isSlash]

theorem pieces_skipSlashes (path : PathName) : pieces (skipSlashes path) = pieces path := by
  induction path with
  | nil => rfl
  | cons c rest ih =>
    rw [skipSlashes_cons]
    split
    · rename_i isSlash
      rw [ih, isSlash, pieces_slash]
    · rfl

theorem slash_notMem_component (path : PathName) : slash ∉ component path := fun member => by
  simpa using List.mem_takeWhile_imp member

/-- A path with a slash is its first name, the slash and the rest. -/
theorem component_append {path : PathName} (slashed : hasSlash path = true) :
    ∃ rest, path = component path ++ slash :: rest ∧ next path = skipSlashes rest := by
  have whole : component path ++ path.dropWhile (· != slash) = path := List.takeWhile_append_dropWhile
  have dropped : path.drop (component path).length = path.dropWhile (· != slash) := by
    have dropped := congrArg (List.drop (component path).length) whole
    rw [List.drop_left] at dropped
    exact dropped.symm
  cases remaining : path.dropWhile (· != slash) with
  | nil =>
    rw [remaining, List.append_nil] at whole
    refine absurd ?_ (slash_notMem_component path)
    rw [whole]
    simpa [hasSlash] using slashed
  | cons c rest =>
    obtain rfl : c = slash := by
      have first := List.head_dropWhile_not (· != slash) (l := path) (by simp [remaining])
      simpa [remaining] using first
    refine ⟨rest, by rw [← remaining, whole], ?_⟩
    rw [next, dropped, remaining, skipSlashes_cons, if_pos rfl]

theorem pieces_of_hasSlash {path : PathName} (slashed : hasSlash path = true)
    (named : component path ≠ []) : pieces path = component path :: pieces (next path) := by
  obtain ⟨rest, whole, following⟩ := component_append slashed
  rw [following, pieces_skipSlashes]
  conv_lhs => rw [whole]
  simp [pieces, List.splitOn_append_cons_self_of_not_mem (slash_notMem_component path), named]

theorem pieces_of_not_hasSlash {path : PathName} (plain : hasSlash path = false) (some : path ≠ []) :
    pieces path = [path] := by
  have absent : slash ∉ path := by simpa [hasSlash] using plain
  simp [pieces, List.splitOn_eq_singleton absent, some]

/-- A path that does not start with a slash starts with a name. -/
theorem component_ne_nil {path : PathName} (some : path ≠ []) (start : path.head? ≠ Option.some slash) :
    component path ≠ [] := by
  cases path with
  | nil => exact absurd rfl some
  | cons c rest =>
    have other : c ≠ slash := fun isSlash => start (by rw [isSlash]; rfl)
    simp [component, other]

theorem head_skipSlashes (path : PathName) : (skipSlashes path).head? ≠ some slash := by
  induction path with
  | nil => simp [skipSlashes]
  | cons c rest ih =>
    rw [skipSlashes_cons]
    split
    · exact ih
    · rename_i other
      simpa using other

theorem getLast_skipSlashes (path : PathName) : (skipSlashes path = [] → path = [] ∨ path.getLast? = some slash) ∧
    (skipSlashes path ≠ [] → (skipSlashes path).getLast? = path.getLast?) := by
  induction path with
  | nil => simp [skipSlashes]
  | cons c rest ih =>
    rw [skipSlashes_cons]
    split
    · rename_i isSlash
      refine ⟨fun none => .inr ?_, fun some => ?_⟩
      · rcases ih.1 none with rfl | last
        · rw [isSlash]
          rfl
        · rw [List.getLast?_cons, last]
          rfl
      · rw [ih.2 some]
        obtain _ | ⟨d, rest⟩ := rest
        · simp [skipSlashes] at some
        · rw [List.getLast?_cons_cons]
    · exact ⟨fun none => absurd none (List.cons_ne_nil _ _), fun _ => rfl⟩

/-- The slash at the end is that of the rest of the path. -/
theorem getLast_next {path : PathName} (slashed : hasSlash path = true) :
    (next path = [] → path.getLast? = some slash) ∧
      (next path ≠ [] → (next path).getLast? = path.getLast?) := by
  obtain ⟨rest, whole, following⟩ := component_append slashed
  have last : path.getLast? = (slash :: rest).getLast? := by
    conv_lhs => rw [whole]
    rw [List.getLast?_append]
    simp [List.getLast?_cons]
  have skipped := getLast_skipSlashes (slash :: rest)
  rw [skipSlashes_cons, if_pos rfl, ← following, ← last] at skipped
  refine ⟨fun none => (skipped.1 none).resolve_left (List.cons_ne_nil _ _), skipped.2⟩

theorem getLast_of_not_hasSlash {path : PathName} (plain : hasSlash path = false) :
    path.getLast? ≠ some slash := by
  intro last
  have member := List.mem_of_getLast? last
  simp [hasSlash, member] at plain

end MPStuBS.VFS
