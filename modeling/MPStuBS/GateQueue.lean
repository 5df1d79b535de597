import MPStuBS.Chain
import MPStuBS.Run

/-! `interrupt/gatequeue.cc`: one queue of gates for every core, threaded through
the `next` array inside each gate. A core only ever uses its own entries. -/
namespace MPStuBS

structure GateQueue (cores gates : Nat) where
  head : Fin cores → Option (Fin gates)
  next : Fin gates → Fin cores → Option (Fin gates)

namespace GateQueue

variable {cores gates : Nat}

def new : GateQueue cores gates := ⟨fun _ => none, fun _ _ => none⟩

/-- The `next` entries of one core. -/
def links (q : GateQueue cores gates) (core : Fin cores) (gate : Fin gates) : Option (Fin gates) :=
  q.next gate core

def setHead (q : GateQueue cores gates) (core : Fin cores) (value : Option (Fin gates)) :
    GateQueue cores gates :=
  { q with head := Function.update q.head core value }

def setNext (q : GateQueue cores gates) (gate : Fin gates) (core : Fin cores)
    (value : Option (Fin gates)) : GateQueue cores gates :=
  { q with next := Function.update q.next gate (Function.update (q.next gate) core value) }

/-- The loop of `enqueue` at `current`. It writes nothing before it ends, so a walk
that is still going after visiting more than `gates` gates goes on forever. -/
def enqueueFrom (q : GateQueue cores gates) (core : Fin cores) (item : Fin gates) :
    Nat → Fin gates → Option (Bool × GateQueue cores gates)
  | 0, _ => none
  | fuel + 1, current =>
    match q.next current core with
    | none => some (true, q.setNext current core (some item))
    | some successor =>
      if current = item then some (false, q) else enqueueFrom q core item fuel successor

def enqueue (q : GateQueue cores gates) (core : Fin cores) (item : Fin gates) :
    Option (Bool × GateQueue cores gates) :=
  match q.head core with
  | none => some (true, q.setHead core (some item))
  | some current => q.enqueueFrom core item (gates + 1) current

/-- The first gate's `next` is cleared before it is read for the new head. -/
def dequeue (q : GateQueue cores gates) (core : Fin cores) :
    Option (Fin gates) × GateQueue cores gates :=
  match q.head core with
  | none => (none, q)
  | some item =>
    let q := q.setNext item core none
    (some item, q.setHead core (q.next item core))

@[simp] theorem setHead_head (q : GateQueue cores gates) (core : Fin cores) (value) :
    (q.setHead core value).head = Function.update q.head core value := rfl

@[simp] theorem setHead_next (q : GateQueue cores gates) (core : Fin cores) (value) :
    (q.setHead core value).next = q.next := rfl

@[simp] theorem setNext_head (q : GateQueue cores gates) (gate core) (value) :
    (q.setNext gate core value).head = q.head := rfl

@[simp] theorem setNext_same (q : GateQueue cores gates) (gate core) (value) :
    (q.setNext gate core value).next gate core = value := by simp [setNext]

theorem setNext_gate (q : GateQueue cores gates) {gate other : Fin gates} (core core') (value)
    (distinct : other ≠ gate) : (q.setNext gate core value).next other core' = q.next other core' := by
  simp [setNext, distinct]

theorem setNext_core (q : GateQueue cores gates) {core other : Fin cores} (gate gate') (value)
    (distinct : other ≠ core) : (q.setNext gate core value).next gate' other = q.next gate' other := by
  by_cases same : gate' = gate
  · subst same; simp [setNext, distinct]
  · exact setNext_gate q core other value same

@[simp] theorem setHead_links (q : GateQueue cores gates) (core core') (value) :
    (q.setHead core value).links core' = q.links core' := rfl

theorem setNext_links (q : GateQueue cores gates) (gate core) (value) :
    (q.setNext gate core value).links core = Function.update (q.links core) gate value := by
  funext g
  by_cases same : g = gate
  · subst same; simp [links]
  · simp [links, setNext_gate q core core value same, same]

/-- Everything `enqueue` can do: refuse, start a queue, or append to some last gate. -/
theorem enqueue_cases {q after : GateQueue cores gates} {core : Fin cores} {item : Fin gates}
    {accepted : Bool} (h : q.enqueue core item = some (accepted, after)) :
    (accepted = false ∧ after = q) ∨
    (accepted = true ∧ q.head core = none ∧ after = q.setHead core (some item)) ∨
    (accepted = true ∧ ∃ last, q.next last core = none ∧ after = q.setNext last core (some item)) := by
  have loop : ∀ fuel current, q.enqueueFrom core item fuel current = some (accepted, after) →
      (accepted = false ∧ after = q) ∨
      (accepted = true ∧ ∃ last, q.next last core = none ∧ after = q.setNext last core (some item)) := by
    intro fuel
    induction fuel with
    | zero => intro current h; cases h
    | succ fuel ih =>
      intro current h
      rw [enqueueFrom] at h
      cases found : q.next current core with
      | none =>
        simp only [found, Option.some.injEq, Prod.mk.injEq] at h
        exact Or.inr ⟨h.1.symm, current, found, h.2.symm⟩
      | some successor =>
        simp only [found] at h
        split at h
        · cases h; exact Or.inl ⟨rfl, rfl⟩
        · exact ih successor h
  unfold enqueue at h
  cases found : q.head core with
  | none =>
    simp only [found, Option.some.injEq, Prod.mk.injEq] at h
    exact Or.inr (Or.inl ⟨h.1.symm, rfl, h.2.symm⟩)
  | some current =>
    simp only [found] at h
    rcases loop _ _ h with refused | appended
    · exact Or.inl refused
    · exact Or.inr (Or.inr appended)

/-- `dequeue` hands out the head and leaves an empty queue behind. -/
theorem dequeue_some {q : GateQueue cores gates} {core : Fin cores} {item : Fin gates}
    (h : q.head core = some item) :
    q.dequeue core = (some item, (q.setNext item core none).setHead core none) := by
  simp [dequeue, h]

theorem dequeue_none {q : GateQueue cores gates} {core : Fin cores} (h : q.head core = none) :
    q.dequeue core = (none, q) := by
  simp [dequeue, h]

theorem dequeue_head (q : GateQueue cores gates) (core : Fin cores) :
    (q.dequeue core).2.head core = none := by
  cases h : q.head core with
  | none => rw [dequeue_none h]; exact h
  | some item => simp [dequeue_some h]

/-- No core reads or writes what belongs to another core. -/
def Untouched (other : Fin cores) (q after : GateQueue cores gates) : Prop :=
  after.head other = q.head other ∧ ∀ gate, after.next gate other = q.next gate other

theorem untouched_enqueue {q after : GateQueue cores gates} {core other : Fin cores} {item accepted}
    (h : q.enqueue core item = some (accepted, after)) (distinct : other ≠ core) :
    Untouched other q after := by
  rcases enqueue_cases h with ⟨_, rfl⟩ | ⟨_, _, rfl⟩ | ⟨_, last, _, rfl⟩
  · exact ⟨rfl, fun _ => rfl⟩
  · exact ⟨by simp [distinct], fun _ => rfl⟩
  · exact ⟨rfl, fun gate => setNext_core q last gate _ distinct⟩

theorem untouched_dequeue (q : GateQueue cores gates) {core other : Fin cores}
    (distinct : other ≠ core) : Untouched other q (q.dequeue core).2 := by
  cases h : q.head core with
  | none => rw [dequeue_none h]; exact ⟨rfl, fun _ => rfl⟩
  | some item =>
    rw [dequeue_some h]
    exact ⟨by simp [distinct], fun gate => setNext_core q item gate _ distinct⟩

end GateQueue
end MPStuBS
