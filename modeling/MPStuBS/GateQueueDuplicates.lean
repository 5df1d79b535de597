import MPStuBS.GateQueueRuns

/-! Which calls of `enqueue` refuse a gate that is already queued. The search loop
never compares the last gate, and `dequeue` leaves links behind it, so a call can
close a cycle; `Clear` is exactly the condition under which it does not. -/
namespace MPStuBS.GateQueue

variable {cores gates : Nat}

/-- The gates met from the core's head. -/
def queued (q : GateQueue cores gates) (core : Fin cores) : List (Fin gates) :=
  Chain.walk (q.links core) gates (q.head core)

/-- The gates met from a gate, itself included. -/
def behind (q : GateQueue cores gates) (core : Fin cores) (item : Fin gates) : List (Fin gates) :=
  Chain.walk (q.links core) gates (some item)

/-- The core's chain reaches `nullptr`, so it holds no cycle and the search loop ends. -/
def Acyclic (q : GateQueue cores gates) (core : Fin cores) : Prop :=
  ∃ nodes, Chain.Seg (q.links core) (q.head core) nodes none

/-- The call returns, refuses the gate and writes nothing exactly if it is queued,
and leaves an acyclic chain. -/
def Honoured (q : GateQueue cores gates) (core : Fin cores) (item : Fin gates) : Prop :=
  ∃ accepted after, q.enqueue core item = some (accepted, after) ∧
    ((accepted = false ∧ after = q) ↔ item ∈ q.queued core) ∧ Acyclic after core

/-- The gate is queued before the last position, or does not lead to the last gate. -/
def ClearOf (q : GateQueue cores gates) (core : Fin cores) (item : Fin gates) : Prop :=
  ∀ last, (q.queued core).getLast? = some last →
    item ∈ (q.queued core).dropLast ∨ last ∉ q.behind core item

instance (q : GateQueue cores gates) (core item) : Decidable (q.ClearOf core item) :=
  inferInstanceAs (Decidable (∀ last, (q.queued core).getLast? = some last →
    item ∈ (q.queued core).dropLast ∨ last ∉ q.behind core item))

def Clear (s : Session cores gates) : Fin cores × Call gates → Prop
  | (core, .enqueue item) => s.queue.ClearOf core item
  | (_, .dequeue) => True

instance (s : Session cores gates) : ∀ call, Decidable (Clear s call)
  | (core, .enqueue item) => inferInstanceAs (Decidable (s.queue.ClearOf core item))
  | (_, .dequeue) => inferInstanceAs (Decidable True)

theorem queued_eq {q : GateQueue cores gates} {core : Fin cores} {nodes}
    (chain : Chain.Seg (q.links core) (q.head core) nodes none) : q.queued core = nodes := by
  simpa [queued] using chain.walk_card

theorem behind_eq {q : GateQueue cores gates} {core : Fin cores} {item nodes}
    (chain : Chain.Seg (q.links core) (some item) nodes none) : q.behind core item = nodes := by
  simpa [behind] using chain.walk_card

theorem length_le_gates {q : GateQueue cores gates} {core : Fin cores} {start nodes}
    (chain : Chain.Seg (q.links core) start nodes none) : nodes.length ≤ gates := by
  simpa using chain.nodup.length_le_card

/-- A gate found before the last position is refused. -/
theorem enqueueFrom_found {q : GateQueue cores gates} {core : Fin cores} {item last : Fin gates}
    {before : List (Fin gates)} {fuel : Nat} {current : Fin gates}
    (chain : Chain.Seg (q.links core) (some current) (before ++ [last]) none)
    (enough : before.length < fuel) (member : item ∈ before) :
    q.enqueueFrom core item fuel current = some (false, q) := by
  induction before generalizing fuel current with
  | nil => cases member
  | cons node rest ih =>
    obtain ⟨fuel, rfl⟩ : ∃ k, fuel = k + 1 := ⟨fuel - 1, by omega⟩
    obtain ⟨here, chain⟩ := chain
    obtain rfl := Option.some.inj here
    obtain ⟨successor, goes⟩ : ∃ successor, q.next current core = some successor := by
      cases rest with
      | nil => exact ⟨_, chain.1⟩
      | cons node' rest' => exact ⟨_, chain.1⟩
    rw [enqueueFrom]
    simp only [goes]
    by_cases same : current = item
    · rw [if_pos same]
    · rw [if_neg same]
      have member := (List.mem_cons.mp member).resolve_left (Ne.symm same)
      exact ih (by rw [← goes]; exact chain) (by simp at enough; omega) member

/-- A gate not found before the last position is linked behind it. -/
theorem enqueueFrom_absent {q : GateQueue cores gates} {core : Fin cores} {item last : Fin gates}
    {before : List (Fin gates)} {fuel : Nat} {current : Fin gates}
    (chain : Chain.Seg (q.links core) (some current) (before ++ [last]) none)
    (enough : before.length < fuel) (absent : item ∉ before) :
    q.enqueueFrom core item fuel current = some (true, q.setNext last core (some item)) := by
  induction before generalizing fuel current with
  | nil =>
    obtain ⟨fuel, rfl⟩ : ∃ k, fuel = k + 1 := ⟨fuel - 1, by simp at enough; omega⟩
    obtain ⟨here, ends⟩ := chain
    obtain rfl := Option.some.inj here
    have ends : q.next current core = none := ends
    simp [enqueueFrom, ends]
  | cons node rest ih =>
    obtain ⟨fuel, rfl⟩ : ∃ k, fuel = k + 1 := ⟨fuel - 1, by omega⟩
    obtain ⟨here, chain⟩ := chain
    obtain rfl := Option.some.inj here
    obtain ⟨distinct, absent⟩ := not_or.mp (mt List.mem_cons.mpr absent)
    obtain ⟨successor, goes⟩ : ∃ successor, q.next current core = some successor := by
      cases rest with
      | nil => exact ⟨_, chain.1⟩
      | cons node' rest' => exact ⟨_, chain.1⟩
    rw [enqueueFrom]
    simp only [goes]
    rw [if_neg (Ne.symm distinct)]
    exact ih (by rw [← goes]; exact chain) (by simp at enough; omega) absent

/-- `enqueue` on a chain that ends, by the position of the gate. -/
theorem enqueue_chain {q : GateQueue cores gates} {core : Fin cores} (item : Fin gates) {last before}
    (chain : Chain.Seg (q.links core) (q.head core) (before ++ [last]) none) :
    q.enqueue core item = if item ∈ before then some (false, q)
      else some (true, q.setNext last core (some item)) := by
  have short := length_le_gates chain
  simp only [List.length_append, List.length_singleton] at short
  cases head : q.head core with
  | none => rw [head] at chain; cases before <;> cases chain.1
  | some current =>
    rw [head] at chain
    unfold enqueue
    simp only [head]
    split
    next member => exact enqueueFrom_found chain (by omega) member
    next absent => exact enqueueFrom_absent chain (by omega) absent

theorem grounded_of_untouched {q after : GateQueue cores gates} {core : Fin cores}
    (same : Untouched core q after) (grounded : Chain.Grounded (q.links core)) :
    Chain.Grounded (after.links core) := by
  have : after.links core = q.links core := funext same.2
  rw [this]; exact grounded

theorem acyclic_of_grounded {q : GateQueue cores gates} {core : Fin cores}
    (grounded : Chain.Grounded (q.links core)) : Acyclic q core := by
  unfold Acyclic
  cases q.head core with
  | none => exact ⟨[], rfl⟩
  | some current => exact grounded current

/-- While no chain holds a cycle, an `enqueue` does what it promises exactly if it
is clear, and then it closes no cycle anywhere. -/
theorem enqueue_honoured {q : GateQueue cores gates} {core : Fin cores} {item : Fin gates}
    (grounded : Chain.Grounded (q.links core)) :
    (Honoured q core item ↔ q.ClearOf core item) ∧
    (q.ClearOf core item → ∀ accepted after, q.enqueue core item = some (accepted, after) →
      Chain.Grounded (after.links core)) := by
  obtain ⟨nodes, chain⟩ := acyclic_of_grounded grounded
  obtain ⟨tail, behind⟩ := grounded item
  unfold Honoured ClearOf
  rw [queued_eq chain, behind_eq behind]
  rcases List.eq_nil_or_concat' nodes with rfl | ⟨before, last, rfl⟩
  · have head : q.head core = none := chain
    have eq : q.enqueue core item = some (true, q.setHead core (some item)) := by simp [enqueue, head]
    refine ⟨⟨fun _ => by simp, fun _ => ⟨_, _, eq, by simp, tail, by simpa using behind⟩⟩, ?_⟩
    rintro _ accepted after h
    rw [eq] at h
    cases h
    exact grounded
  · have eq := enqueue_chain item chain
    simp only [List.getLast?_append, List.getLast?_singleton, Option.some_or, Option.some.injEq,
      List.dropLast_concat, forall_eq']
    by_cases member : item ∈ before
    · rw [if_pos member] at eq
      refine ⟨⟨fun _ => Or.inl member, fun _ => ⟨_, _, eq, by simp [member], _, chain⟩⟩, ?_⟩
      rintro _ accepted after h
      rw [eq] at h
      cases h
      exact grounded
    · rw [if_neg member] at eq
      by_cases leads : last ∈ tail
      · refine ⟨⟨?_, fun clear => absurd leads (clear.resolve_left member)⟩,
          fun clear => absurd leads (clear.resolve_left member)⟩
        rintro ⟨accepted, after, h, _, nodes, ends⟩
        rw [eq] at h
        cases h
        obtain ⟨loop, rest, rfl⟩ := List.append_of_mem leads
        rw [setNext_links, setNext_head] at ends
        exact absurd ⟨nodes, ends⟩ (Chain.no_end_of_loop chain behind)
      · have kept : Chain.Grounded ((q.setNext last core (some item)).links core) := by
          rw [setNext_links]; exact grounded.update behind leads
        have apart : item ≠ last := by
          rintro rfl
          cases tail with
          | nil => cases behind
          | cons node rest =>
            obtain rfl := Option.some.inj behind.1
            exact leads List.mem_cons_self
        refine ⟨⟨fun _ => Or.inr leads, fun _ => ⟨_, _, eq, by simp [member, apart], ?_⟩⟩, ?_⟩
        · exact acyclic_of_grounded kept
        · rintro _ accepted after h
          rw [eq] at h
          cases h
          exact kept

theorem dequeue_grounded {q : GateQueue cores gates} {core : Fin cores}
    (grounded : Chain.Grounded (q.links core)) : Chain.Grounded ((q.dequeue core).2.links core) := by
  cases head : q.head core with
  | none => rw [dequeue_none head]; exact grounded
  | some item =>
    rw [dequeue_some head, setHead_links, setNext_links]
    exact grounded.update (show Chain.Seg _ none [] none from rfl) (by simp)

theorem grounded_step {s after : Session cores gates} {call : Fin cores × Call gates}
    (grounded : ∀ core, Chain.Grounded (s.queue.links core)) (clear : Clear s call)
    (h : s.step call = some after) : ∀ core, Chain.Grounded (after.queue.links core) := by
  obtain ⟨caller, call⟩ := call
  intro core
  by_cases same : core = caller
  · subst same
    cases call with
    | enqueue item =>
      obtain ⟨accepted, found, _⟩ := Session.step_enqueue h
      exact (enqueue_honoured (grounded core)).2 clear _ _ found
    | dequeue =>
      rw [(Session.step_dequeue h).1]
      exact dequeue_grounded (grounded core)
  · exact grounded_of_untouched (Session.step_untouched h same) (grounded core)

theorem grounded_start (core : Fin cores) :
    Chain.Grounded ((Session.start : Session cores gates).queue.links core) :=
  fun node => ⟨[node], rfl, rfl⟩

/-- In every run whose `enqueue` calls are clear no core's chain holds a cycle, and a
further call keeps its promise exactly if it is clear too. -/
theorem duplicates_refused (calls : List (Fin cores × Call gates)) (s : Session cores gates)
    (run : Run.exec Session.step Session.start calls = some s)
    (clear : Run.Along Session.step Clear Session.start calls) :
    (∀ core, Acyclic s.queue core) ∧
    ∀ core item, Honoured s.queue core item ↔ s.queue.ClearOf core item := by
  have grounded := Run.invariant_along
    (fun s : Session cores gates => ∀ core, Chain.Grounded (s.queue.links core))
    (fun s call after here clear h => grounded_step here clear h) run clear grounded_start
  exact ⟨fun core => acyclic_of_grounded (grounded core),
    fun core item => (enqueue_honoured (grounded core)).1⟩

theorem duplicates_refused_three_calls : ∃ s : Session 2 2,
    Run.exec Session.step Session.start [(0, .enqueue 0), (0, .enqueue 1), (0, .enqueue 0)] = some s ∧
      Acyclic s.queue 0 ∧ Honoured s.queue 0 0 ∧ ¬ Honoured s.queue 0 1 := by
  have refused := duplicates_refused ([(0, .enqueue 0), (0, .enqueue 1), (0, .enqueue 0)] :
    List (Fin 2 × Call 2)) _ rfl (by decide)
  exact ⟨_, rfl, refused.1 0, (refused.2 0 0).mpr (by decide),
    fun honoured => absurd ((refused.2 0 1).mp honoured) (by decide)⟩

/-- A gate enqueued twice in a row is accepted twice: it is its own successor then,
and the next `enqueue` of another gate never returns. -/
theorem same_gate_accepted_twice : ∃ s after : Session 1 2,
    Run.exec Session.step Session.start [(0, .enqueue 0)] = some s ∧
    s.step (0, .enqueue 0) = some after ∧ 0 ∈ s.queue.queued 0 ∧
    after.log = [.enqueued 0 0 true, .enqueued 0 0 true] ∧
    ¬ Acyclic after.queue 0 ∧ after.queue.enqueue 0 1 = none := by
  refine ⟨_, _, rfl, rfl, by decide, by decide, ?_, rfl⟩
  rintro ⟨nodes, chain⟩
  have nodup := chain.nodup
  match nodes, chain with
  | [], chain => cases chain
  | [_], ⟨here, there⟩ => cases here; cases there
  | a :: b :: rest, ⟨here, there, _⟩ =>
    cases here
    cases there
    simp at nodup

end MPStuBS.GateQueue
