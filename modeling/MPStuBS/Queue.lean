import MPStuBS.Chain
import Mathlib.Data.List.Basic

/-! `object/queue.h`: a singly linked queue whose nodes carry their own
`_next_node` and whose `tail` is a pointer to a pointer. All queues of one element
type share the `_next_node` fields; `Rep` relates a queue to the list it holds. -/
namespace MPStuBS

/-- What a `T **` of the queue may address: its own `head` or a node's `_next_node`. -/
inductive Slot (T : Type) where
  | head
  | next (node : T)
  deriving DecidableEq, Repr

structure Queue (T : Type) where
  head : Option T
  tail : Slot T
  deriving DecidableEq, Repr

/-- The `_next_node` field of every node. -/
abbrev Links (T : Type) := T → Option T

namespace Queue

variable {T : Type} [DecidableEq T]

def new : Queue T := ⟨none, .head⟩

/-- `*slot = value`. -/
def store (q : Queue T) (links : Links T) (value : Option T) : Slot T → Queue T × Links T
  | .head => ({ q with head := value }, links)
  | .next node => (q, Function.update links node value)

/-- `*slot`. -/
def load (q : Queue T) (links : Links T) : Slot T → Option T
  | .head => q.head
  | .next node => links node

def enqueue (q : Queue T) (links : Links T) (item : T) : Queue T × Links T :=
  let links := Function.update links item none
  let (q, links) := q.store links (some item) q.tail
  ({ q with tail := .next item }, links)

def dequeue (q : Queue T) (links : Links T) : Option T × Queue T × Links T :=
  match q.head with
  | none => (none, q, links)
  | some out =>
    let q := { q with head := links out }
    let q := if q.head = none then { q with tail := .head } else q
    (some out, q, Function.update links out none)

/-- The search loop of `remove` at `current`, which was reached through `prev`.
The fuel bounds the number of nodes visited. -/
def removeFrom (q : Queue T) (links : Links T) (item : T) :
    Nat → Slot T → Option T → Option (Option T × Queue T × Links T)
  | 0, _, _ => none
  | _ + 1, _, none => some (none, q, links)
  | fuel + 1, prev, some current =>
    if item = current then
      let (q, links) := q.store links (links current) prev
      let q := if Slot.next current = q.tail then { q with tail := prev } else q
      some (some current, q, links)
    else removeFrom q links item fuel (.next current) (links current)

def remove (fuel : Nat) (q : Queue T) (links : Links T) (item : T) :
    Option (Option T × Queue T × Links T) :=
  removeFrom q links item fuel .head q.head

def insertFirst (q : Queue T) (links : Links T) (item : T) : Queue T × Links T :=
  let links := Function.update links item q.head
  let q := { q with head := some item }
  (if q.tail = .head then { q with tail := .next item } else q, links)

def insertAfter (q : Queue T) (links : Links T) (old new : T) : Queue T × Links T :=
  let links := Function.update links new (links old)
  let links := Function.update links old (some new)
  (if q.load links q.tail = some new then { q with tail := .next new } else q, links)

def first (q : Queue T) : Option T := q.head

/-- The slot behind the last element: where `tail` points. -/
def endSlot (nodes : List T) : Slot T :=
  match nodes.getLast? with
  | none => .head
  | some node => .next node

omit [DecidableEq T] in
@[simp] theorem endSlot_nil : endSlot ([] : List T) = .head := rfl

omit [DecidableEq T] in
@[simp] theorem endSlot_snoc (nodes : List T) (node : T) :
    endSlot (nodes ++ [node]) = .next node := by
  simp [endSlot]

omit [DecidableEq T] in
theorem endSlot_cons (node : T) (rest : List T) :
    endSlot (node :: rest) = if rest = [] then .next node else endSlot rest := by
  rcases List.eq_nil_or_concat' rest with rfl | ⟨front, back, rfl⟩
  · simp [endSlot]
  · rw [← List.cons_append, endSlot_snoc, endSlot_snoc]; simp

omit [DecidableEq T] in
theorem endSlot_next {nodes : List T} {node : T} (h : endSlot nodes = .next node) :
    ∃ front, nodes = front ++ [node] := by
  rcases List.eq_nil_or_concat' nodes with rfl | ⟨front, back, rfl⟩
  · cases h
  · rw [endSlot_snoc] at h; cases h; exact ⟨front, rfl⟩

/-- The pointers of `q` represent the list `nodes`. -/
structure Rep (links : Links T) (q : Queue T) (nodes : List T) : Prop where
  chain : Chain.Seg links q.head nodes none
  tail : q.tail = endSlot nodes

section Rep

variable {links other : Links T} {q : Queue T} {nodes more : List T} {item : T}

omit [DecidableEq T] in
theorem Rep.nodup (rep : Rep links q nodes) : nodes.Nodup := rep.chain.nodup

omit [DecidableEq T] in
/-- Queues that share no node do not influence each other. -/
theorem Rep.frame (rep : Rep links q nodes) (same : ∀ x ∈ nodes, other x = links x) :
    Rep other q nodes :=
  ⟨rep.chain.congr same, rep.tail⟩

omit [DecidableEq T] in
theorem rep_new (links : Links T) : Rep links new [] := ⟨rfl, rfl⟩

omit [DecidableEq T] in
theorem Rep.head_eq (rep : Rep links q nodes) : q.head = nodes.head? := by
  cases nodes with
  | nil => exact rep.chain
  | cons node rest => exact rep.chain.1

theorem enqueue_rep (rep : Rep links q nodes) (fresh : item ∉ nodes) :
    Rep (q.enqueue links item).2 (q.enqueue links item).1 (nodes ++ [item]) := by
  obtain ⟨chain, tail⟩ := rep
  have kept := chain.update (v := none) fresh
  refine ⟨?_, by simp [enqueue]⟩
  rcases List.eq_nil_or_concat' nodes with rfl | ⟨front, back, rfl⟩
  · simp [enqueue, store, tail]
  · obtain ⟨left, last⟩ := Chain.seg_snoc.mp kept
    have distinct : item ≠ back := fun eq => fresh (by simp [eq])
    have apart : back ∉ front := fun member => by
      have := chain.nodup
      simp [List.nodup_append] at this
      exact this.2 back member rfl
    simp only [enqueue, store, tail, endSlot_snoc]
    refine Chain.seg_snoc.mpr ⟨Chain.seg_snoc.mpr ⟨left.update apart, by simp⟩, ?_⟩
    simp [Function.update_of_ne distinct]

theorem enqueue_links (rep : Rep links q nodes) {x : T} (apart : x ∉ nodes) (distinct : x ≠ item) :
    (q.enqueue links item).2 x = links x := by
  rcases List.eq_nil_or_concat' nodes with rfl | ⟨front, back, rfl⟩
  · simp [enqueue, store, rep.tail, distinct]
  · have : x ≠ back := fun eq => apart (by simp [eq])
    simp [enqueue, store, rep.tail, distinct, this]

omit [DecidableEq T] in
theorem dequeue_nil [DecidableEq T] (rep : Rep links q []) : q.dequeue links = (none, q, links) := by
  have : q.head = none := rep.chain
  simp [dequeue, this]

theorem dequeue_cons (rep : Rep links q (item :: nodes)) :
    ∃ after, q.dequeue links = (some item, after, Function.update links item none) ∧
      Rep (Function.update links item none) after nodes := by
  obtain ⟨⟨here, chain⟩, tail⟩ := rep
  have apart : item ∉ nodes := by
    have := (show Chain.Seg links (some item) (item :: nodes) none from ⟨rfl, chain⟩).nodup
    exact (List.nodup_cons.mp this).1
  cases nodes with
  | nil =>
    have ends : links item = none := chain
    exact ⟨_, by simp [dequeue, here]; rfl, by simp [ends], by simp [ends]⟩
  | cons node rest =>
    have goes : links item = some node := chain.1
    refine ⟨{ q with head := some node }, by simp [dequeue, here, goes], ?_, ?_⟩
    · have := chain.update (v := none) apart
      rwa [goes] at this
    · simp [tail, endSlot_cons item]

/-- `*prev = current->_next_node`, with the correction of `tail`: the body of `remove`. -/
def unlink (q : Queue T) (links : Links T) (item : T) (prev : Slot T) : Queue T × Links T :=
  let (q, links) := q.store links (links item) prev
  (if Slot.next item = q.tail then { q with tail := prev } else q, links)

theorem removeFrom_found (fuel : Nat) (prev : Slot T) :
    q.removeFrom links item (fuel + 1) prev (some item) =
      some (some item, (q.unlink links item prev).1, (q.unlink links item prev).2) := by
  simp [removeFrom, unlink]

theorem unlink_rep {before after : List T} (rep : Rep links q (before ++ item :: after)) :
    Rep (q.unlink links item (endSlot before)).2 (q.unlink links item (endSlot before)).1
      (before ++ after) ∧
    ∀ x, x ∉ before → (q.unlink links item (endSlot before)).2 x = links x := by
  have nodup := rep.nodup
  obtain ⟨chain, tail⟩ := rep
  obtain ⟨_, left, rfl, right⟩ := Chain.seg_append.mp chain
  have ends : (Slot.next item = endSlot (before ++ item :: after)) ↔ after = [] := by
    constructor
    · intro same
      obtain ⟨front, eq⟩ := endSlot_next same.symm
      rcases List.eq_nil_or_concat' after with rfl | ⟨mid, back, rfl⟩
      · rfl
      · rw [← List.cons_append, ← List.append_assoc] at eq
        obtain ⟨_, last⟩ := List.append_inj' eq rfl
        simp at last
        subst last
        simp [List.nodup_append] at nodup
    · rintro rfl; simp
  have moved : after ≠ [] → endSlot (before ++ item :: after) = endSlot (before ++ after) := by
    intro nonempty
    obtain ⟨mid, back, rfl⟩ := (List.eq_nil_or_concat' after).resolve_left nonempty
    rw [← List.cons_append, ← List.append_assoc, ← List.append_assoc, endSlot_snoc, endSlot_snoc]
  rcases List.eq_nil_or_concat' before with rfl | ⟨front, back, rfl⟩
  · simp only [endSlot_nil, List.nil_append] at tail ends moved ⊢
    simp only [unlink, store, tail]
    refine ⟨⟨?_, ?_⟩, fun _ _ => trivial⟩
    · split <;> exact right
    · by_cases h : after = []
      · simp [h, endSlot]
      · rw [if_neg (fun same => h (ends.mp same))]
        exact moved h
  · have apart : back ∉ front ∧ back ∉ after := by
      simp [List.nodup_append] at nodup
      grind
    simp only [unlink, store, endSlot_snoc, tail]
    refine ⟨⟨?_, ?_⟩, ?_⟩
    · have prefixed := ((Chain.seg_snoc.mp left).1).update (v := links item) apart.1
      have rest := right.update (v := links item) apart.2
      have joined := Chain.seg_append.mpr ⟨_, Chain.seg_snoc.mpr ⟨prefixed, rfl⟩, by
        rw [Function.update_self]; exact rest⟩
      split <;> exact joined
    · by_cases h : after = []
      · rw [if_pos (ends.mpr h), h, List.append_nil, endSlot_snoc]
      · rw [if_neg (fun same => h (ends.mp same))]
        exact tail.trans (moved h)
    · intro x outside
      exact Function.update_of_ne (fun eq => outside (by simp [eq])) _ _

theorem removeFrom_absent {rest : List T} {current : Option T} {fuel : Nat} (prev : Slot T)
    (chain : Chain.Seg links current rest none) (enough : rest.length < fuel) (absent : item ∉ rest) :
    q.removeFrom links item fuel prev current = some (none, q, links) := by
  induction rest generalizing fuel prev current with
  | nil =>
    obtain ⟨fuel, rfl⟩ := Nat.exists_eq_add_of_lt enough
    rw [chain]; simp [removeFrom]
  | cons node rest ih =>
    obtain ⟨fuel, rfl⟩ : ∃ k, fuel = k + 1 := ⟨fuel - 1, by omega⟩
    obtain ⟨distinct, absent⟩ := not_or.mp (mt List.mem_cons.mpr absent)
    rw [chain.1, removeFrom, if_neg distinct]
    exact ih _ chain.2 (by simp at enough; omega) absent

theorem removeFrom_member (before : List T) {rest : List T} {current : Option T} {fuel : Nat}
    (rep : Rep links q (before ++ rest)) (chain : Chain.Seg links current rest none)
    (enough : rest.length < fuel) (member : item ∈ rest) :
    ∃ q' links', q.removeFrom links item fuel (endSlot before) current = some (some item, q', links') ∧
      Rep links' q' (before ++ rest.erase item) ∧ ∀ x, x ∉ before ++ rest → links' x = links x := by
  induction rest generalizing fuel before current with
  | nil => simp at member
  | cons node rest ih =>
    obtain ⟨fuel, rfl⟩ : ∃ k, fuel = k + 1 := ⟨fuel - 1, by omega⟩
    obtain ⟨rfl, chain⟩ := chain
    by_cases same : item = node
    · subst same
      obtain ⟨after, frame⟩ := unlink_rep rep
      refine ⟨_, _, removeFrom_found fuel _, by simpa using after, fun x outside => frame x ?_⟩
      exact fun inside => outside (List.mem_append_left _ inside)
    · have moved : Rep links q ((before ++ [node]) ++ rest) := by simpa using rep
      have member := (List.mem_cons.mp member).resolve_left same
      obtain ⟨q', links', eq, after, frame⟩ := ih (before ++ [node]) moved chain (by simp at enough; omega) member
      rw [endSlot_snoc] at eq
      refine ⟨q', links', by rw [removeFrom, if_neg same]; exact eq, ?_, by simpa using frame⟩
      simpa [List.erase_cons, Ne.symm same] using after

theorem remove_absent {fuel : Nat} (rep : Rep links q nodes) (enough : nodes.length < fuel)
    (absent : item ∉ nodes) : q.remove fuel links item = some (none, q, links) :=
  removeFrom_absent _ rep.chain enough absent

theorem remove_member {fuel : Nat} (rep : Rep links q nodes) (enough : nodes.length < fuel)
    (member : item ∈ nodes) : ∃ q' links', q.remove fuel links item = some (some item, q', links') ∧
      Rep links' q' (nodes.erase item) ∧ ∀ x, x ∉ nodes → links' x = links x :=
  removeFrom_member [] rep rep.chain enough member

theorem insertFirst_rep (rep : Rep links q nodes) (fresh : item ∉ nodes) :
    Rep (q.insertFirst links item).2 (q.insertFirst links item).1 (item :: nodes) := by
  obtain ⟨chain, tail⟩ := rep
  have kept := chain.update (v := q.head) fresh
  have headed : (q.insertFirst links item).1.head = some item := by
    simp only [insertFirst]; split <;> rfl
  have linked : (q.insertFirst links item).2 = Function.update links item q.head := by
    simp only [insertFirst]
  refine ⟨?_, ?_⟩
  · rw [headed, linked, Chain.seg_cons, Function.update_self]
    exact ⟨rfl, kept⟩
  · rw [endSlot_cons]
    rcases List.eq_nil_or_concat' nodes with rfl | ⟨front, back, rfl⟩
    · simp [insertFirst, tail]
    · simp [insertFirst, tail]

theorem insertAfter_rep {before after : List T} {old : T}
    (rep : Rep links q (before ++ old :: after)) (fresh : item ∉ before ++ old :: after) :
    Rep (q.insertAfter links old item).2 (q.insertAfter links old item).1
      (before ++ old :: item :: after) := by
  have nodup := rep.nodup
  obtain ⟨chain, tail⟩ := rep
  simp only [List.mem_append, List.mem_cons, not_or] at fresh
  obtain ⟨freshBefore, distinct, freshAfter⟩ := fresh
  obtain ⟨oldBefore, oldAfter⟩ : old ∉ before ∧ old ∉ after := by
    simp [List.nodup_append] at nodup
    grind
  obtain ⟨_, left, rfl, right⟩ := Chain.seg_append.mp chain
  have linked : (q.insertAfter links old item).2 =
      Function.update (Function.update links item (links old)) old (some item) := rfl
  have headed : (q.insertAfter links old item).1.head = q.head := by
    simp only [insertAfter]; split <;> rfl
  refine ⟨?_, ?_⟩
  · rw [headed, linked]
    refine Chain.seg_append.mpr ⟨_, (left.update freshBefore).update oldBefore, rfl, ?_⟩
    rw [Function.update_self]
    refine ⟨rfl, ?_⟩
    rw [Function.update_of_ne distinct, Function.update_self]
    exact (right.update freshAfter).update oldAfter
  · rcases List.eq_nil_or_concat' after with rfl | ⟨mid, back, rfl⟩
    · have : endSlot (before ++ [old, item]) = .next item := by
        rw [show before ++ [old, item] = (before ++ [old]) ++ [item] by simp, endSlot_snoc]
      simp [insertAfter, tail, load, this]
    · have last : endSlot (before ++ old :: item :: (mid ++ [back])) = .next back := by
        rw [show before ++ old :: item :: (mid ++ [back]) = (before ++ old :: item :: mid) ++ [back] by
          simp, endSlot_snoc]
      have was : endSlot (before ++ old :: (mid ++ [back])) = .next back := by
        rw [show before ++ old :: (mid ++ [back]) = (before ++ old :: mid) ++ [back] by simp,
          endSlot_snoc]
      have ends : links back = none := by
        rw [was] at tail
        have := Chain.seg_snoc.mp right
        exact this.2
      have apart : back ≠ old ∧ back ≠ item := by
        constructor
        · rintro rfl; simp at oldAfter
        · rintro rfl; simp at freshAfter
      rw [last]
      simp [insertAfter, tail, was, load, Function.update_of_ne apart.1, Function.update_of_ne apart.2,
        ends]

end Rep

end Queue
end MPStuBS
