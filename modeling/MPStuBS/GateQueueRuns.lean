import MPStuBS.GateQueue

/-! Runs of `GateQueue` calls issued by all cores in any order. The log of a session
records what every call returned; nothing reads it. -/
namespace MPStuBS.GateQueue

variable {cores gates : Nat}

inductive Call (gates : Nat) where
  | enqueue (item : Fin gates)
  | dequeue
  deriving DecidableEq, Repr

inductive Event (cores gates : Nat) where
  | enqueued (core : Fin cores) (item : Fin gates) (accepted : Bool)
  | dequeued (core : Fin cores) (item : Option (Fin gates))
  deriving DecidableEq, Repr

structure Session (cores gates : Nat) where
  queue : GateQueue cores gates
  log : List (Event cores gates)

namespace Session

def start : Session cores gates := ⟨new, []⟩

/-- One call on one core. An `enqueue` that never ends has no successor. -/
def step (s : Session cores gates) (call : Fin cores × Call gates) : Option (Session cores gates) :=
  match call with
  | (core, .enqueue item) => (s.queue.enqueue core item).map fun (accepted, queue) =>
      ⟨queue, s.log ++ [.enqueued core item accepted]⟩
  | (core, .dequeue) => some ⟨(s.queue.dequeue core).2,
      s.log ++ [.dequeued core (s.queue.dequeue core).1]⟩

theorem step_enqueue {s after : Session cores gates} {core item}
    (h : s.step (core, .enqueue item) = some after) : ∃ accepted,
      s.queue.enqueue core item = some (accepted, after.queue) ∧
      after.log = s.log ++ [.enqueued core item accepted] := by
  obtain ⟨⟨accepted, queue⟩, found, rfl⟩ := Option.map_eq_some_iff.mp h
  exact ⟨accepted, found, rfl⟩

theorem step_dequeue {s after : Session cores gates} {core}
    (h : s.step (core, .dequeue) = some after) :
    after.queue = (s.queue.dequeue core).2 ∧
      after.log = s.log ++ [.dequeued core (s.queue.dequeue core).1] := by
  cases h; exact ⟨rfl, rfl⟩

/-- A call leaves the queues of all other cores alone. -/
theorem step_untouched {s after : Session cores gates} {core other : Fin cores} {call : Call gates}
    (h : s.step (core, call) = some after) (distinct : other ≠ core) :
    Untouched other s.queue after.queue := by
  cases call with
  | enqueue item =>
    obtain ⟨accepted, found, _⟩ := step_enqueue h
    exact untouched_enqueue found distinct
  | dequeue =>
    rw [(step_dequeue h).1]
    exact untouched_dequeue s.queue distinct

end Session

def acceptedBy (core : Fin cores) : Event cores gates → Option (Fin gates)
  | .enqueued c item true => if c = core then some item else none
  | _ => none

def returnedBy (core : Fin cores) : Event cores gates → Option (Fin gates)
  | .dequeued c (some item) => if c = core then some item else none
  | _ => none

/-- The gates for which `enqueue` returned true on the core, oldest first. -/
def accepted (core : Fin cores) (log : List (Event cores gates)) : List (Fin gates) :=
  log.filterMap (acceptedBy core)

/-- The gates `dequeue` returned on the core, oldest first. -/
def returned (core : Fin cores) (log : List (Event cores gates)) : List (Fin gates) :=
  log.filterMap (returnedBy core)

@[simp] theorem accepted_snoc (core : Fin cores) (log : List (Event cores gates)) (event) :
    accepted core (log ++ [event]) = accepted core log ++ (acceptedBy core event).toList := by
  cases h : acceptedBy core event <;> simp [accepted, h]

@[simp] theorem returned_snoc (core : Fin cores) (log : List (Event cores gates)) (event) :
    returned core (log ++ [event]) = returned core log ++ (returnedBy core event).toList := by
  cases h : returnedBy core event <;> simp [returned, h]

/-- Accepted gates come out once each and in order, and `dequeue` finds the queue
empty only when all of them have come out. -/
structure InOrder (core : Fin cores) (log : List (Event cores gates)) : Prop where
  fifo : returned core log <+: accepted core log
  complete : ∀ before after, log = before ++ .dequeued core none :: after →
    returned core before = accepted core before

/-- `dequeue` is called only while the head has no successor. -/
def Alone (s : Session cores gates) : Fin cores × Call gates → Prop
  | (_, .enqueue _) => True
  | (core, .dequeue) => ∀ item, s.queue.head core = some item → s.queue.next item core = none

instance (s : Session cores gates) : ∀ call, Decidable (Alone s call)
  | (_, .enqueue _) => inferInstanceAs (Decidable True)
  | (core, .dequeue) => inferInstanceAs (Decidable
      (∀ item, s.queue.head core = some item → s.queue.next item core = none))

/-- What a core's pointers and log say about each other while `Alone` has been met:
a queue that grew to two gates can no longer be dequeued. -/
inductive Kept (core : Fin cores) (q : GateQueue cores gates) (log : List (Event cores gates)) : Prop
  | empty : q.head core = none → (∀ g, q.next g core = none) →
      accepted core log = returned core log → Kept core q log
  | single (item) : q.head core = some item → (∀ g, q.next g core = none) →
      accepted core log = returned core log ++ [item] → Kept core q log
  | more (item second rest) : q.head core = some item → q.next item core ≠ none →
      accepted core log = returned core log ++ item :: second :: rest → Kept core q log

theorem Kept.fifo {core : Fin cores} {q : GateQueue cores gates} {log} (kept : Kept core q log) :
    returned core log <+: accepted core log := by
  cases kept with
  | empty _ _ eq => rw [eq]
  | single item _ _ eq => exact ⟨_, eq.symm⟩
  | more item second rest _ _ eq => exact ⟨_, eq.symm⟩

theorem Kept.untouched {core : Fin cores} {q after : GateQueue cores gates} {log log'}
    (kept : Kept core q log) (same : Untouched core q after)
    (accepts : accepted core log' = accepted core log)
    (returns : returned core log' = returned core log) : Kept core after log' := by
  cases kept with
  | empty head next eq =>
    exact .empty (same.1.trans head) (fun g => (same.2 g).trans (next g)) (by rw [accepts, returns, eq])
  | single item head next eq =>
    exact .single item (same.1.trans head) (fun g => (same.2 g).trans (next g))
      (by rw [accepts, returns, eq])
  | more item second rest head next eq =>
    exact .more item second rest (same.1.trans head) (by rw [same.2 item]; exact next)
      (by rw [accepts, returns, eq])

theorem Kept.enqueue {core : Fin cores} {q after : GateQueue cores gates} {log item result}
    (kept : Kept core q log) (h : q.enqueue core item = some (result, after)) :
    Kept core after (log ++ [.enqueued core item result]) := by
  have returns : returned core (log ++ [.enqueued core item result]) = returned core log := by
    simp [returnedBy]
  have accepts : accepted core (log ++ [.enqueued core item result]) =
      accepted core log ++ if result then [item] else [] := by
    cases result <;> simp [acceptedBy]
  cases kept with
  | empty head next eq =>
    obtain ⟨rfl, rfl⟩ : true = result ∧ q.setHead core (some item) = after := by
      simpa [GateQueue.enqueue, head] using h
    exact .single item (by simp) next (by simp [accepts, returns, eq])
  | single first head next eq =>
    obtain ⟨rfl, rfl⟩ : true = result ∧ q.setNext first core (some item) = after := by
      simpa [GateQueue.enqueue, head, enqueueFrom, next first] using h
    exact .more first item [] (by simpa using head) (by simp) (by simp [accepts, returns, eq])
  | more first second rest head next eq =>
    rcases enqueue_cases h with ⟨rfl, rfl⟩ | ⟨_, none, _⟩ | ⟨rfl, last, ends, rfl⟩
    · exact .more first second rest head next (by simp [accepts, returns, eq])
    · rw [head] at none; cases none
    · refine .more first second (rest ++ [item]) (by simpa using head) ?_ (by simp [accepts, returns, eq])
      have distinct : first ≠ last := by rintro rfl; exact next ends
      rw [setNext_gate q core core _ distinct]
      exact next

theorem Kept.dequeue {core : Fin cores} {q : GateQueue cores gates} {log} (kept : Kept core q log)
    (alone : ∀ item, q.head core = some item → q.next item core = none) :
    Kept core (q.dequeue core).2 (log ++ [.dequeued core (q.dequeue core).1]) ∧
    ((q.dequeue core).1 = none → returned core log = accepted core log) := by
  cases kept with
  | empty head next eq =>
    rw [dequeue_none head]
    exact ⟨.empty head next (by simp [acceptedBy, returnedBy, eq]), fun _ => eq.symm⟩
  | single item head next eq =>
    rw [dequeue_some head]
    refine ⟨.empty (by simp) (fun g => ?_) (by simp [acceptedBy, returnedBy, eq]), by simp⟩
    by_cases same : g = item
    · subst same; simp
    · simpa [setNext_gate q core core _ same] using next g
  | more item second rest head next eq => exact absurd (alone item head) next

theorem inOrder_snoc {core : Fin cores} {log : List (Event cores gates)} {event}
    (order : InOrder core log) (fifo : returned core (log ++ [event]) <+: accepted core (log ++ [event]))
    (complete : event = .dequeued core none → returned core log = accepted core log) :
    InOrder core (log ++ [event]) := by
  refine ⟨fifo, fun before after eq => ?_⟩
  rcases List.eq_nil_or_concat' after with rfl | ⟨front, last, rfl⟩
  · obtain ⟨rfl, same⟩ := List.append_inj' eq rfl
    exact complete (List.singleton_inj.mp same)
  · rw [← List.cons_append, ← List.append_assoc] at eq
    obtain ⟨rfl, _⟩ := List.append_inj' eq rfl
    exact order.complete before front rfl

/-- One step keeps the accounting of every core. -/
theorem kept_step {s after : Session cores gates} {call : Fin cores × Call gates}
    (kept : ∀ core, Kept core s.queue s.log ∧ InOrder core s.log) (alone : Alone s call)
    (h : s.step call = some after) : ∀ core, Kept core after.queue after.log ∧ InOrder core after.log := by
  obtain ⟨caller, call⟩ := call
  intro core
  have here := kept core
  by_cases same : core = caller
  · subst same
    cases call with
    | enqueue item =>
      obtain ⟨result, found, log⟩ := Session.step_enqueue h
      have next := here.1.enqueue found
      rw [log]
      exact ⟨next, inOrder_snoc here.2 next.fifo (by simp)⟩
    | dequeue =>
      obtain ⟨queue, log⟩ := Session.step_dequeue h
      obtain ⟨next, complete⟩ := here.1.dequeue alone
      rw [log, queue]
      exact ⟨next, inOrder_snoc here.2 next.fifo (by simpa using complete)⟩
  · have frame := Session.step_untouched h same
    have distinct : caller ≠ core := Ne.symm same
    obtain ⟨event, log, accepts, returns, other⟩ : ∃ event, after.log = s.log ++ [event] ∧
        acceptedBy core event = none ∧ returnedBy core event = none ∧ event ≠ .dequeued core none := by
      cases call with
      | enqueue item =>
        obtain ⟨result, _, log⟩ := Session.step_enqueue h
        exact ⟨_, log, by cases result <;> simp [acceptedBy, distinct], rfl, by simp⟩
      | dequeue =>
        obtain ⟨_, log⟩ := Session.step_dequeue h
        refine ⟨_, log, rfl, ?_, by simp [distinct]⟩
        cases (s.queue.dequeue caller).1 <;> simp [returnedBy, distinct]
    rw [log]
    have next : Kept core after.queue (s.log ++ [event]) :=
      here.1.untouched frame (by simp [accepts]) (by simp [returns])
    exact ⟨next, inOrder_snoc here.2 next.fifo (fun eq => absurd eq other)⟩

theorem kept_start (core : Fin cores) :
    Kept core (Session.start : Session cores gates).queue (Session.start : Session cores gates).log ∧
      InOrder core (Session.start : Session cores gates).log :=
  ⟨.empty rfl (fun _ => rfl) rfl, ⟨List.prefix_rfl, by intro before after eq; simp [Session.start] at eq⟩⟩

/-- In every run that dequeues a core's queue only while its head has no successor,
that queue hands out what it accepted, once and in order, and no call disturbs
another core's queue. -/
theorem gates_in_order (calls : List (Fin cores × Call gates)) (s : Session cores gates)
    (run : Run.exec Session.step Session.start calls = some s)
    (alone : Run.Along Session.step Alone Session.start calls) :
    (∀ core, InOrder core s.log) ∧
    ∀ core call after, s.step (core, call) = some after →
      ∀ other, other ≠ core → Untouched other s.queue after.queue := by
  have kept := Run.invariant_along
    (fun s : Session cores gates => ∀ core, Kept core s.queue s.log ∧ InOrder core s.log)
    (fun s call after here alone h => kept_step here alone h) run alone kept_start
  exact ⟨fun core => (kept core).2, fun _ _ _ h _ distinct => Session.step_untouched h distinct⟩

theorem gates_in_order_two_cores : ∃ s : Session 2 2,
    Run.exec Session.step Session.start [(0, .enqueue 0), (1, .enqueue 0), (0, .dequeue), (0, .dequeue),
      (0, .enqueue 1), (1, .dequeue)] = some s ∧ InOrder 0 s.log ∧ InOrder 1 s.log := by
  have order := gates_in_order ([(0, .enqueue 0), (1, .enqueue 0), (0, .dequeue), (0, .dequeue),
    (0, .enqueue 1), (1, .dequeue)] : List (Fin 2 × Call 2)) _ rfl (by decide)
  exact ⟨_, rfl, order.1 0, order.1 1⟩

/-- Two gates pending on one core: the second is lost when the first is dequeued. -/
theorem second_gate_lost : ∃ s : Session 1 2,
    Run.exec Session.step Session.start [(0, .enqueue 0), (0, .enqueue 1), (0, .dequeue), (0, .dequeue)]
      = some s ∧ ¬ InOrder 0 s.log := by
  refine ⟨_, rfl, fun order => ?_⟩
  exact absurd (order.complete [.enqueued 0 0 true, .enqueued 0 1 true, .dequeued 0 (some 0)] [] rfl)
    (by decide)

/-- A dequeue that finds a successor behind the head always loses gates: the next
one reports an empty queue too early. -/
theorem gate_lost_unless_alone (calls : List (Fin cores × Call gates)) (s : Session cores gates)
    (core : Fin cores) (run : Run.exec Session.step Session.start calls = some s)
    (alone : Run.Along Session.step Alone Session.start calls) (crowded : ¬ Alone s (core, .dequeue)) :
    ∃ after, Run.exec Session.step s [(core, .dequeue), (core, .dequeue)] = some after ∧
      ¬ InOrder core after.log := by
  have kept := (Run.invariant_along
    (fun s : Session cores gates => ∀ core, Kept core s.queue s.log ∧ InOrder core s.log)
    (fun s call after here alone h => kept_step here alone h) run alone kept_start core).1
  refine ⟨_, rfl, fun order => crowded ?_⟩
  have found : ((s.queue.dequeue core).2.dequeue core).1 = none := by
    rw [dequeue_none (dequeue_head s.queue core)]
  have complete := order.complete (s.log ++ [.dequeued core (s.queue.dequeue core).1]) []
    (by simp [found])
  cases kept with
  | empty head _ _ => intro item eq; rw [head] at eq; cases eq
  | single item head next _ => intro item' _; exact next item'
  | more item second rest head next eq =>
    rw [dequeue_some head] at complete
    simp [acceptedBy, returnedBy, eq] at complete

end MPStuBS.GateQueue
