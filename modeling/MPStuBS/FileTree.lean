import Mathlib.Data.Option.Basic

/-! Trees of directories, symbolic links and other files, and what a route through such a
tree leads to. A route that comes to a symbolic link goes on along the route of the link. -/
namespace MPStuBS

universe u v

namespace FileTree

/-- A part of a route: to stay, to go to the parent, or to what has a name. -/
inductive Move (ν : Type v) where
  | stay
  | up
  | down (name : ν)
  deriving DecidableEq, Repr

/-- Where a route starts, what it visits, and whether it has to end at a directory. -/
structure Route (ν : Type v) where
  absolute : Bool
  moves : List (Move ν)
  directory : Bool
  deriving DecidableEq, Repr

inductive Node (ι : Type u) (ν : Type v) where
  | dir (parent : ι) (entries : ν → Option ι)
  | link (target : Route ν)
  | file

end FileTree

open FileTree in
structure FileTree (ι : Type u) (ν : Type v) where
  root : ι
  node : ι → Option (Node ι ν)

namespace FileTree

variable {ι : Type u} {ν : Type v} (t : FileTree ι ν)

def isDir (i : ι) : Bool :=
  match t.node i with
  | some (.dir _ _) => true
  | _ => false

/-- Names lead to nodes, parents are directories, and the root is its own parent. -/
structure WellFormed : Prop where
  root : ∃ entries, t.node t.root = some (.dir t.root entries)
  parent : ∀ i parent entries, t.node i = some (.dir parent entries) → t.isDir parent = true
  child : ∀ i parent entries name j, t.node i = some (.dir parent entries) → entries name = some j →
    (t.node j).isSome

def enter (dir : ι) (move : Move ν) : Option ι :=
  match t.node dir with
  | some (.dir parent entries) =>
    match move with
    | .stay => some dir
    | .up => some parent
    | .down name => entries name
  | _ => none

/-- The moves from a directory on. `expand` says where a node leads that may be a link in a
directory; the last node is expanded only if `last` is set. -/
def walk (expand : ι → ι → Option ι) (last : Bool) : ι → List (Move ν) → Option ι
  | dir, [] => some dir
  | dir, [move] => (t.enter dir move).bind fun i => if last then expand dir i else some i
  | dir, move :: rest =>
    ((t.enter dir move).bind (expand dir)).bind fun i => if t.isDir i then walk expand last i rest else none

/-- An empty route leads nowhere. -/
def lead (expand : ι → ι → Option ι) (cwd : ι) (route : Route ν) (last : Bool) : Option ι :=
  if route.absolute = false ∧ route.moves = [] then none
  else
    (t.walk expand last (if route.absolute then t.root else cwd) route.moves).bind fun i =>
      if route.directory && !t.isDir i then none else some i

/-- Where a node in a directory leads, with at most so many links inside each other. -/
def expand : Nat → ι → ι → Option ι
  | 0, _, i =>
    match t.node i with
    | some (.link _) => none
    | _ => some i
  | depth + 1, dir, i =>
    match t.node i with
    | some (.link target) => t.lead (expand depth) dir target true
    | _ => some i

/-- Where a route leads with at most so many links inside each other. -/
def resolve (depth : Nat) (cwd : ι) (route : Route ν) (last : Bool) : Option ι :=
  t.lead (t.expand depth) cwd route last

variable {t} {e e' : ι → ι → Option ι} {last : Bool} {cwd i j : ι}

theorem isDir_iff : t.isDir i = true ↔ ∃ parent entries, t.node i = some (.dir parent entries) := by
  unfold FileTree.isDir
  constructor
  · intro isDir
    split at isDir
    · exact ⟨_, _, by assumption⟩
    · cases isDir
  · rintro ⟨parent, entries, node⟩
    rw [node]

/-- What is no link leads to itself. -/
theorem expand_self {depth : Nat} {dir : ι} (noLink : ∀ target, t.node i ≠ some (.link target)) :
    t.expand depth dir i = some i := by
  cases depth <;> unfold expand <;> split <;> first | rfl | exact absurd (by assumption) (noLink _)

end FileTree
end MPStuBS
