import MPStuBS.QueueFamily

/-! Runs of calls on several queues of one element type, against the same runs on lists. -/
namespace MPStuBS.Queue

variable {ι T : Type} [DecidableEq ι] [DecidableEq T]

/-- The calls that change queue `i`. -/
inductive Call (ι T : Type) where
  | enqueue (i : ι) (item : T)
  | dequeue (i : ι)
  | remove (i : ι) (item : T)
  | insertFirst (i : ι) (item : T)
  | insertAfter (i : ι) (old new : T)
  deriving DecidableEq

/-- The queues and the `_next_node` fields that they share. -/
structure Queues (ι T : Type) where
  links : Links T
  queues : ι → Queue T

namespace Queues

def new : Queues ι T := ⟨fun _ => none, fun _ => .new⟩

def set (s : Queues ι T) (i : ι) : Queue T × Links T → Queues ι T
  | (q, links) => ⟨links, Function.update s.queues i q⟩

/-- The pointer that a call returns and the queues after it. Only the loop of `remove` needs fuel. -/
def call (fuel : Nat) (s : Queues ι T) : Call ι T → Option (Option T × Queues ι T)
  | .enqueue i item => some (none, s.set i ((s.queues i).enqueue s.links item))
  | .dequeue i =>
    let (out, changed) := (s.queues i).dequeue s.links
    some (out, s.set i changed)
  | .remove i item => ((s.queues i).remove fuel s.links item).map fun (found, changed) => (found, s.set i changed)
  | .insertFirst i item => some (none, s.set i ((s.queues i).insertFirst s.links item))
  | .insertAfter i old new => some (none, s.set i ((s.queues i).insertAfter s.links old new))

def calls (fuel : Nat) (s : Queues ι T) : List (Call ι T) → Option (List (Option T) × Queues ι T)
  | [] => some ([], s)
  | c :: rest => do
    let (result, s) ← s.call fuel c
    let (results, s) ← calls fuel s rest
    pure (result :: results, s)

end Queues

/-- The list with an item behind the first `old`. -/
def insertBehind (old new : T) : List T → List T
  | [] => []
  | x :: rest => if x = old then x :: new :: rest else x :: insertBehind old new rest

namespace Call

/-- What a call does to the lists. -/
def onLists (lists : ι → List T) : Call ι T → Option T × (ι → List T)
  | enqueue i item => (none, Function.update lists i (lists i ++ [item]))
  | dequeue i => ((lists i).head?, Function.update lists i (lists i).tail)
  | remove i item => (if item ∈ lists i then some item else none, Function.update lists i ((lists i).erase item))
  | insertFirst i item => (none, Function.update lists i (item :: lists i))
  | insertAfter i old new => (none, Function.update lists i (insertBehind old new (lists i)))

/-- An item is inserted only while it is in no queue, and only behind an item of the queue. -/
def Allowed (lists : ι → List T) : Call ι T → Prop
  | enqueue _ item => ∀ j, item ∉ lists j
  | dequeue _ => True
  | remove _ _ => True
  | insertFirst _ item => ∀ j, item ∉ lists j
  | insertAfter i old new => old ∈ lists i ∧ ∀ j, new ∉ lists j

/-- The results of the calls and the lists after them. -/
def runLists (lists : ι → List T) : List (Call ι T) → List (Option T) × (ι → List T)
  | [] => ([], lists)
  | c :: rest =>
    let (result, lists) := c.onLists lists
    let (results, lists) := runLists lists rest
    (result :: results, lists)

def AllAllowed (lists : ι → List T) : List (Call ι T) → Prop
  | [] => True
  | c :: rest => c.Allowed lists ∧ AllAllowed (c.onLists lists).2 rest

end Call

variable {lists : ι → List T} {s : Queues ι T} {fuel : Nat}

omit [DecidableEq ι] in
theorem insertBehind_append {old new : T} {before after : List T} (first : old ∉ before) :
    insertBehind old new (before ++ old :: after) = before ++ old :: new :: after := by
  induction before with
  | nil => simp [insertBehind]
  | cons x rest ih =>
    obtain ⟨apart, later⟩ := not_or.mp (mt List.mem_cons.mpr first)
    simp only [List.cons_append, insertBehind, if_neg (Ne.symm apart), ih later]

omit [DecidableEq ι] in
theorem length_insertBehind_le (old new : T) (nodes : List T) : (insertBehind old new nodes).length ≤ nodes.length + 1 := by
  induction nodes with
  | nil => simp [insertBehind]
  | cons x rest ih =>
    unfold insertBehind
    split
    · simp
    · simpa using ih

/-- A call makes no list longer by more than one. -/
theorem Call.length_onLists_le (lists : ι → List T) (c : Call ι T) (j : ι) : ((c.onLists lists).2 j).length ≤ (lists j).length + 1 := by
  have kept : ∀ {i nodes}, nodes.length ≤ (lists i).length + 1 →
      (Function.update lists i nodes j).length ≤ (lists j).length + 1 := by
    intro i nodes short
    by_cases same : j = i
    · subst same
      rwa [Function.update_self]
    · rw [Function.update_of_ne same]
      exact Nat.le_succ _
  cases c with
  | enqueue i item => exact kept (by simp)
  | dequeue i => exact kept (by simp; omega)
  | remove i item => exact kept (Nat.le_succ_of_le List.length_erase_le)
  | insertFirst i item => exact kept (by simp)
  | insertAfter i old new => exact kept (length_insertBehind_le old new _)

/-- The queues do what the lists do. -/
theorem call_refines (family : Family s.links s.queues lists) (c : Call ι T) (allowed : c.Allowed lists)
    (enough : ∀ i, (lists i).length < fuel) : ∃ s', s.call fuel c = some ((c.onLists lists).1, s') ∧
      Family s'.links s'.queues (c.onLists lists).2 := by
  cases c with
  | enqueue i item => exact ⟨_, rfl, family.enqueue allowed⟩
  | dequeue i =>
    obtain ⟨after, links', ran, family⟩ := family.dequeue (i := i)
    refine ⟨⟨links', Function.update s.queues i after⟩, ?_, family⟩
    simp only [Queues.call, ran, Queues.set, Call.onLists]
  | remove i item =>
    obtain ⟨after, links', ran, family⟩ := family.remove (enough i) item
    refine ⟨⟨links', Function.update s.queues i after⟩, ?_, family⟩
    simp only [Queues.call, ran, Queues.set, Call.onLists, Option.map_some]
  | insertFirst i item => exact ⟨_, rfl, family.insertFirst allowed⟩
  | insertAfter i old new =>
    obtain ⟨member, fresh⟩ := allowed
    obtain ⟨before, after, place, first⟩ := List.eq_append_cons_of_mem member
    refine ⟨_, rfl, ?_⟩
    simp only [Call.onLists]
    rw [place, insertBehind_append first]
    exact family.insertAfter place fresh

theorem calls_refine (family : Family s.links s.queues lists) (cs : List (Call ι T))
    (allowed : Call.AllAllowed lists cs) (enough : ∀ i, (lists i).length + cs.length < fuel) :
    ∃ s', s.calls fuel cs = some ((Call.runLists lists cs).1, s') ∧
      Family s'.links s'.queues (Call.runLists lists cs).2 := by
  induction cs generalizing s lists with
  | nil => exact ⟨s, rfl, family⟩
  | cons c rest ih =>
    obtain ⟨next, first, after⟩ := call_refines family c allowed.1 fun i => Nat.lt_of_le_of_lt (Nat.le_add_right _ _) (enough i)
    obtain ⟨final, later, whole⟩ := ih after allowed.2 fun i => by
      have grows := c.length_onLists_le lists i
      have bound := enough i
      rw [List.length_cons] at bound
      omega
    refine ⟨final, ?_, whole⟩
    simp [Queues.calls, first, later, Call.runLists]

/-- Whatever is called on the queues, as long as an item is inserted only while it is in none of them:
every call returns, whose loop visits at most one node for each call before it, with the result of the
same call on lists; and the pointers of each queue represent its list. -/
theorem queues_refine_lists (cs : List (Call ι T)) (allowed : Call.AllAllowed (fun _ => []) cs)
    (fuel : Nat) (enough : cs.length < fuel) :
    ∃ s : Queues ι T, Queues.new.calls fuel cs = some ((Call.runLists (fun _ => []) cs).1, s) ∧
      ∀ i, (s.queues i).Rep s.links ((Call.runLists (fun _ => []) cs).2 i) ∧
        ((Call.runLists (fun _ => []) cs).2 i).Nodup := by
  obtain ⟨s, ran, family⟩ := calls_refine (s := Queues.new) (Family.new _) cs allowed fun i => by simpa using enough
  exact ⟨s, ran, fun i => ⟨family.rep i, family.nodup i⟩⟩

/-- Two queues of numbers. -/
def twoQueues : List (Call (Fin 2) (Fin 5)) := [.enqueue 0 1, .insertFirst 0 2, .insertAfter 0 1 3, .enqueue 1 4,
  .remove 0 1, .remove 0 1, .insertAfter 1 4 1, .dequeue 1]

theorem twoQueues_refine : ∃ s : Queues (Fin 2) (Fin 5),
    Queues.new.calls 9 twoQueues = some ([none, none, none, none, some 1, none, none, some 4], s) ∧
      ∀ i, (s.queues i).Rep s.links ((Call.runLists (fun _ => []) twoQueues).2 i) ∧
        ((Call.runLists (fun _ => []) twoQueues).2 i).Nodup := by
  refine queues_refine_lists twoQueues ?_ 9 (by decide)
  refine ⟨?_, ?_, ?_, ?_, ?_, ?_, ?_, ?_, trivial⟩ <;> first | trivial | (unfold Call.Allowed; decide)

end MPStuBS.Queue
