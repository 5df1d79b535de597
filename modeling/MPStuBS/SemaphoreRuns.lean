import MPStuBS.KernelPlacement

/-! What a semaphore promises over whole runs: it grants neither more nor fewer calls
than it was given, and waiting threads in their order. The calls are counted in the run
itself, and whether one was granted is seen in the waiting room. Nothing depends on the
threads being alive, so kills are allowed. -/
namespace MPStuBS

variable {cfg : Config} {Q : Type} [ThreadQueues cfg Q]

open ThreadQueues

/-- The caller, if the call is a `p` of the semaphore. -/
def pCaller (sem : Fin cfg.semaphores) (s : Kernel cfg Q) (call : Fin cfg.cores × Op cfg) :
    List (Thread cfg) :=
  if call.2 = .p sem then (s.lifePointer call.1).toList else []

/-- Callers of `p` that went on at once. -/
def passes (sem : Fin cfg.semaphores) (s : Kernel cfg Q) (call : Fin cfg.cores × Op cfg)
    (after : Kernel cfg Q) : List (Thread cfg) :=
  (pCaller sem s call).filter (· ∉ waiting after.queues (.semaphore sem))

/-- Callers of `p` that wait in the room now. -/
def blockings (sem : Fin cfg.semaphores) (s : Kernel cfg Q) (call : Fin cfg.cores × Op cfg)
    (after : Kernel cfg Q) : List (Thread cfg) :=
  (pCaller sem s call).filter (· ∈ waiting after.queues (.semaphore sem))

/-- Threads that were waiting before the call and are not any more. -/
def wakings (sem : Fin cfg.semaphores) (s : Kernel cfg Q) (_ : Fin cfg.cores × Op cfg)
    (after : Kernel cfg Q) : List (Thread cfg) :=
  (waiting s.queues (.semaphore sem)).filter (· ∉ waiting after.queues (.semaphore sem))

/-- The calls of `p` that were granted in a run, at once or by waking the caller. -/
def grants (sem : Fin cfg.semaphores) (s : Kernel cfg Q) (calls : List (Fin cfg.cores × Op cfg)) :
    Nat :=
  (Run.collect Kernel.step (passes sem) s calls).length +
    (Run.collect Kernel.step (wakings sem) s calls).length

/-- How often the run calls the operation. -/
def callsOf (op : Op cfg) (calls : List (Fin cfg.cores × Op cfg)) : Nat :=
  calls.countP (·.2 = op)

@[simp] theorem callsOf_nil (op : Op cfg) : callsOf op [] = 0 := rfl

theorem callsOf_cons (op : Op cfg) (call : Fin cfg.cores × Op cfg)
    (rest : List (Fin cfg.cores × Op cfg)) :
    callsOf op (call :: rest) = (if call.2 = op then 1 else 0) + callsOf op rest := by
  by_cases same : call.2 = op <;> simp [callsOf, same, Nat.add_comm]

/-- The call neither destroys the semaphore nor overflows its counter. -/
def Respects (sem : Fin cfg.semaphores) (s : Kernel cfg Q) (call : Fin cfg.cores × Op cfg) : Prop :=
  call.2 ≠ .destroy (.semaphore sem) ∧ (call.2 = .v sem → s.counter sem + 1 < 2 ^ 32)

instance (sem : Fin cfg.semaphores) (s : Kernel cfg Q) (call : Fin cfg.cores × Op cfg) :
    Decidable (Respects sem s call) :=
  inferInstanceAs (Decidable (_ ∧ (_ → _)))

section Steps

variable [LawfulThreadQueues cfg Q] {sem : Fin cfg.semaphores} {s after : Kernel cfg Q}
  {core : Fin cfg.cores} {op : Op cfg}

/-- `p` takes a token or joins the room; in both cases it is a single move. -/
theorem p_step (good : s.Good) (step : s.step (core, .p sem) = some after) :
    ∃ id, s.lifePointer core = some (.app id) ∧
      ((0 < s.counter sem ∧ after.view = s.view.after (.pass sem (.app id))) ∨
        (s.counter sem = 0 ∧ after.view = s.view.after (.wait core (.semaphore sem) id))) := by
  obtain ⟨⟨id, active⟩, eq⟩ := Kernel.step_eq_some.mp step
  refine ⟨id, active, ?_⟩
  simp only [Op.exec, Semaphore.p, Dispatcher.active, active] at eq
  split at eq
  case isTrue positive =>
    obtain rfl := Except.ok.inj eq
    exact .inl ⟨positive, rfl⟩
  case isFalse zero =>
    obtain ⟨result, blocked, _, view⟩ := block_spec good active (.semaphore sem)
    obtain rfl : after = result := Except.ok.inj (eq.symm.trans blocked)
    exact .inr ⟨Nat.eq_zero_of_not_pos zero, view⟩

/-- So is `v`: it hands its token to the first waiting thread or keeps it. -/
theorem v_step (good : s.Good) (step : s.step (core, .v sem) = some after) :
    (waiting s.queues (.semaphore sem) = [] ∧
        after.view = s.view.after (.increment sem (s.counter sem))) ∨
      ∃ that, (waiting s.queues (.semaphore sem)).head? = some that ∧
        after.view = s.view.after (.hand sem that) := by
  obtain ⟨_, eq⟩ := Kernel.step_eq_some.mp step
  obtain ⟨_, _, _, fails⟩ | ⟨m, result, makes, allowed, _, view, signalled⟩ := v_spec good core sem
  · cases eq.symm.trans fails
  · obtain rfl : after = result := Except.ok.inj (eq.symm.trans signalled)
    rcases makes with rfl | ⟨that, head, rfl⟩
    · exact .inl ⟨allowed.1, view⟩
    · exact .inr ⟨that, head, view⟩

/-- Every other call leaves the counter and the room alone. -/
theorem other_step (good : s.Good) (notP : op ≠ .p sem) (notV : op ≠ .v sem)
    (respects : Respects sem s (core, op)) (step : s.step (core, op) = some after) :
    waiting after.queues (.semaphore sem) = waiting s.queues (.semaphore sem) ∧
      after.counter sem = s.counter sem := by
  refine step_invariant (fun v => v.waiting (.semaphore sem) = waiting s.queues (.semaphore sem) ∧
    v.counter sem = s.counter sem) good ?_ step ⟨rfl, rfl⟩
  rintro v m placed ⟨room, counter⟩ makes allowed
  cases op with
  | p other =>
    have distinct : sem ≠ other := by rintro rfl; exact notP rfl
    rcases makes with ⟨_, rfl⟩ | ⟨_, rfl⟩ <;> simp [Threads.after, room, counter, distinct]
  | v other =>
    have distinct : sem ≠ other := by rintro rfl; exact notV rfl
    rcases makes with rfl | ⟨_, _, rfl⟩ <;> simp [Threads.after, room, counter, distinct]
  | destroy w =>
    obtain ⟨_, _, rfl⟩ := makes
    have distinct : Waitingroom.semaphore sem ≠ w := by rintro rfl; exact respects.1 rfl
    simp [Threads.after, room, counter, distinct]
  | ready _ | kill _ =>
    obtain ⟨_, _, rfl⟩ := makes
    simp [Threads.after, room, counter]
  | schedule =>
    obtain rfl : m = .start core := makes
    simp [Threads.after, room, counter]
  | resume | assassin =>
    rcases makes with ⟨_, rfl⟩ | ⟨_, rfl⟩ <;> simp [Threads.after, room, counter]
  | exit | sleep _ _ =>
    obtain ⟨_, rfl⟩ := makes
    simp [Threads.after, room, counter]
  | ring _ =>
    obtain ⟨_, _, rfl⟩ := makes
    simp [Threads.after, room, counter]
  | check =>
    obtain ⟨_, _, _, _, rfl⟩ := makes
    simp [Threads.after, room, counter]
  | watch =>
    rcases makes with ⟨_, _, _, _, _, rfl⟩ | ⟨_, rfl⟩ | ⟨_, rfl⟩ <;>
      simp [Threads.after, room, counter]

/-- While the counter is positive nobody waits. -/
def Idle (sem : Fin cfg.semaphores) (s : Kernel cfg Q) : Prop :=
  0 < s.counter sem → waiting s.queues (.semaphore sem) = []

/-- What one call does to the account of the semaphore and to the order in its room. -/
structure Conserves (sem : Fin cfg.semaphores) (s : Kernel cfg Q) (call : Fin cfg.cores × Op cfg)
    (after : Kernel cfg Q) : Prop where
  idle : Idle sem after
  tokens : (passes sem s call after).length + (wakings sem s call after).length +
    after.counter sem = s.counter sem + if call.2 = .v sem then 1 else 0
  order : waiting s.queues (.semaphore sem) ++ blockings sem s call after =
    wakings sem s call after ++ waiting after.queues (.semaphore sem)
  called : (passes sem s call after).length + (blockings sem s call after).length =
    if call.2 = .p sem then 1 else 0

theorem p_conserves (good : s.Good) (idle : Idle sem s)
    (step : s.step (core, .p sem) = some after) : Conserves sem s (core, .p sem) after := by
  obtain ⟨id, active, ⟨positive, view⟩ | ⟨zero, view⟩⟩ := p_step good step
  · have counter : after.counter sem = s.counter sem - 1 := by
      simpa [Kernel.view, Threads.after] using congrFun (congrArg Threads.counter view) sem
    have room : waiting after.queues (.semaphore sem) = [] := by
      have same := congrFun (congrArg Threads.waiting view) (.semaphore sem)
      exact same.trans (idle positive)
    constructor
    · exact fun _ => room
    · simp [passes, wakings, pCaller, active, room, counter, idle positive]
      omega
    · simp [blockings, wakings, pCaller, room, idle positive]
    · simp [passes, blockings, pCaller, active, room]
  · have counter : after.counter sem = 0 := by
      have same := congrFun (congrArg Threads.counter view) sem
      simpa [Kernel.view, Threads.after, zero] using same
    have room : waiting after.queues (.semaphore sem) =
        waiting s.queues (.semaphore sem) ++ [.app id] := by
      simpa [Kernel.view, Threads.after] using
        congrFun (congrArg Threads.waiting view) (.semaphore sem)
    have nobody : wakings sem s (core, .p sem) after = [] := by
      simp only [wakings, room, List.filter_eq_nil_iff]
      intro that waits
      simp [waits]
    constructor
    · intro positive
      omega
    · simp [passes, pCaller, active, room, counter, zero, nobody]
    · simp [blockings, pCaller, active, room, nobody]
    · simp [passes, blockings, pCaller, active, room]

theorem v_conserves (good : s.Good) (idle : Idle sem s) (fits : s.counter sem + 1 < 2 ^ 32)
    (step : s.step (core, .v sem) = some after) : Conserves sem s (core, .v sem) after := by
  have noCaller : pCaller sem s (core, .v sem) = [] := by simp [pCaller]
  obtain ⟨nobody, view⟩ | ⟨that, head, view⟩ := v_step good step
  · have counter : after.counter sem = s.counter sem + 1 := by
      have same := congrFun (congrArg Threads.counter view) sem
      rw [← Nat.mod_eq_of_lt fits]
      simpa [Kernel.view, Threads.after] using same
    have room : waiting after.queues (.semaphore sem) = [] := by
      have same := congrFun (congrArg Threads.waiting view) (.semaphore sem)
      exact same.trans nobody
    constructor
    · exact fun _ => room
    · simp [passes, wakings, noCaller, nobody, counter]
    · simp [blockings, wakings, noCaller, nobody, room]
    · simp [passes, blockings, noCaller]
  · obtain ⟨rest, queue⟩ := List.head?_eq_some_iff.mp head
    have exhausted : s.counter sem = 0 := by
      by_contra positive
      simp [idle (Nat.pos_of_ne_zero positive)] at queue
    have counter : after.counter sem = 0 := by
      have same := congrFun (congrArg Threads.counter view) sem
      exact same.trans exhausted
    have room : waiting after.queues (.semaphore sem) = rest := by
      have same := congrFun (congrArg Threads.waiting view) (.semaphore sem)
      simpa [Kernel.view, Threads.after, queue] using same
    have gone : that ∉ rest := by
      have nodup := good.placed.nodup_waiting (.semaphore sem)
      rw [show s.view.waiting (.semaphore sem) = that :: rest from queue] at nodup
      exact (List.nodup_cons.mp nodup).1
    have woken : wakings sem s (core, .v sem) after = [that] := by
      simp only [wakings, queue, room, List.filter_cons]
      simp [gone]
    constructor
    · intro positive
      omega
    · simp [passes, noCaller, woken, counter, exhausted]
    · simp [blockings, noCaller, woken, queue, room]
    · simp [passes, blockings, noCaller]

theorem step_conserves (good : s.Good) (idle : Idle sem s) (respects : Respects sem s (core, op))
    (step : s.step (core, op) = some after) : Conserves sem s (core, op) after := by
  by_cases isP : op = .p sem
  · subst isP
    exact p_conserves good idle step
  by_cases isV : op = .v sem
  · subst isV
    exact v_conserves good idle (respects.2 rfl) step
  obtain ⟨room, counter⟩ := other_step good isP isV respects step
  have noCaller : pCaller sem s (core, op) = [] := by simp [pCaller, isP]
  have nobody : wakings sem s (core, op) after = [] := by
    simp only [wakings, room, List.filter_eq_nil_iff]
    intro that waits
    simp [waits]
  constructor
  · intro positive
    rw [room]
    exact idle (counter ▸ positive)
  · simp [passes, noCaller, nobody, counter, isV]
  · simp [blockings, noCaller, nobody, room]
  · simp [passes, blockings, noCaller, isP]

/-- The account over a run from any state in order. -/
theorem run_conserves {calls : List (Fin cfg.cores × Op cfg)} {final : Kernel cfg Q} (good : s.Good)
    (idle : Idle sem s) (run : Run.exec Kernel.step s calls = some final)
    (respects : Run.Along Kernel.step (Respects sem) s calls) :
    Idle sem final ∧
    grants sem s calls + final.counter sem = s.counter sem + callsOf (.v sem) calls ∧
    waiting s.queues (.semaphore sem) ++ Run.collect Kernel.step (blockings sem) s calls =
      Run.collect Kernel.step (wakings sem) s calls ++ waiting final.queues (.semaphore sem) ∧
    (Run.collect Kernel.step (passes sem) s calls).length +
      (Run.collect Kernel.step (blockings sem) s calls).length = callsOf (.p sem) calls := by
  induction calls generalizing s with
  | nil =>
    cases run
    exact ⟨idle, by simp [grants, Run.collect], by simp [Run.collect], by simp [Run.collect]⟩
  | cons call rest ih =>
    obtain ⟨core, op⟩ := call
    obtain ⟨next, step, later⟩ := Run.exec_cons_eq_some.mp run
    obtain ⟨idleNext, tokens, order, called⟩ := step_conserves good idle respects.1 step
    obtain ⟨idleFinal, tokens', order', called'⟩ :=
      ih (step_moves good step).1 idleNext later (respects.2 next step)
    dsimp only at tokens called
    simp only [grants, Run.collect_cons step, callsOf_cons, List.length_append] at tokens' ⊢
    refine ⟨idleFinal, by omega, ?_, by omega⟩
    rw [← List.append_assoc, order, List.append_assoc, order', List.append_assoc]

end Steps

end MPStuBS
