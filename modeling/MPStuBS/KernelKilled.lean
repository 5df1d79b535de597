import MPStuBS.KernelPlacement

/-! A thread that is killed while it runs leaves its core at the latest with the
interrupt. Only `resume` looks at the kill flag, so the thread stays away unless it
blocks first and is woken again, or is readied once more. -/
namespace MPStuBS

variable {cfg : Config}

open ThreadQueues

/-- The event puts the thread on the ready list or on a core. -/
def Event.Returns (that : Thread cfg) : Event cfg → Prop
  | .appended other | .dispatched _ other => other = that
  | _ => False

/-- The move puts the thread on the ready list although it was on no core. -/
def Move.Revives : Move cfg → Thread cfg → Prop
  | .arrive id, that => .app id = that
  | .hand _ other, that | .ring _ other, that => other = that
  | _, _ => False

/-- After a thread was killed while it ran, it never returns. -/
def NeverBack (log : List (Event cfg)) : Prop :=
  ∀ that before after, log = before ++ .killed that true :: after →
    ∀ event ∈ after, ¬ event.Returns that

/-- The threads an operation puts back on the ready list: the one readied, or those it
finds in the rooms that it signals. -/
def Op.Revives {Q : Type} [ThreadQueues cfg Q] (core : Fin cfg.cores) (s : Kernel cfg Q) :
    Op cfg → Thread cfg → Prop
  | .ready other, that => other = that
  | .v sem, that => (waiting s.queues (.semaphore sem)).head? = some that
  | .ring bell, that => that ∈ waiting s.queues (.bell bell)
  | .destroy w, that => that ∈ waiting s.queues w
  | .check, that => ∃ bell, s.Due bell ∧ that ∈ waiting s.queues (.bell bell)
  | .watch, that => core.val = 0 ∧ ∃ bell, s.Due bell ∧ that ∈ waiting s.queues (.bell bell)
  | _, _ => False

instance {Q : Type} [ThreadQueues cfg Q] (core : Fin cfg.cores) (s : Kernel cfg Q)
    (that : Thread cfg) : ∀ op, Decidable (Op.Revives core s op that)
  | .ready other => inferInstanceAs (Decidable (other = that))
  | .v _ => inferInstanceAs (Decidable (_ = some that))
  | .ring _ | .destroy _ => inferInstanceAs (Decidable (that ∈ _))
  | .check => inferInstanceAs (Decidable (∃ bell, s.Due bell ∧ that ∈ _))
  | .watch => inferInstanceAs (Decidable (core.val = 0 ∧ ∃ bell, s.Due bell ∧ that ∈ _))
  | .schedule | .resume | .exit | .kill _ | .p _ | .sleep .. | .assassin =>
    inferInstanceAs (Decidable False)

/-- The call revives no thread that was killed while it ran. -/
def LeavesKilled {Q : Type} [ThreadQueues cfg Q] (s : Kernel cfg Q)
    (call : Fin cfg.cores × Op cfg) : Prop :=
  ∀ that, .killed that true ∈ s.log → ¬ call.2.Revives call.1 s that

instance {Q : Type} [ThreadQueues cfg Q] (s : Kernel cfg Q) (call : Fin cfg.cores × Op cfg) :
    Decidable (LeavesKilled s call) :=
  inferInstanceAs (Decidable (∀ _, _ → _))

theorem neverBack_snoc {log : List (Event cfg)} {event : Event cfg} (never : NeverBack log)
    (stays : ∀ that, .killed that true ∈ log → ¬ event.Returns that) :
    NeverBack (log ++ [event]) := by
  rintro that before after split
  rcases List.eq_nil_or_concat' after with rfl | ⟨front, last, rfl⟩
  · simp
  · rw [← List.cons_append, ← List.append_assoc] at split
    obtain ⟨rfl, same⟩ := List.append_inj' split rfl
    obtain rfl : event = last := by simpa using same
    intro other member
    rcases List.mem_append.mp member with earlier | here
    · exact never that before front rfl other earlier
    · obtain rfl := List.mem_singleton.mp here
      exact stays that (by simp)

namespace Threads

variable {v : Threads cfg}

/-- A thread killed while it ran is marked and not on the ready list. -/
structure Buried (v : Threads cfg) : Prop where
  marked : ∀ that, .killed that true ∈ v.log → v.killFlag that = true
  notReady : ∀ that, .killed that true ∈ v.log → that ∉ v.ready
  never : NeverBack v.log

namespace Buried

theorem note (buried : v.Buried) (event : Event cfg) (noKill : ∀ that, event ≠ .killed that true)
    (stays : ∀ that, ¬ event.Returns that) : (v.note event).Buried where
  marked that member := buried.marked that (by
    simpa [(noKill that).symm] using member)
  notReady that member := buried.notReady that (by
    simpa [(noKill that).symm] using member)
  never := neverBack_snoc buried.never fun that _ => stays that

theorem append {other : Thread cfg} (buried : v.Buried) (spared : .killed other true ∉ v.log) :
    (v.append other).Buried where
  marked that member := buried.marked that (by simpa using member)
  notReady that member := by
    have killed : .killed that true ∈ v.log := by simpa using member
    have distinct : that ≠ other := by rintro rfl; exact spared killed
    simpa [distinct] using buried.notReady that killed
  never := neverBack_snoc buried.never fun that killed returns => by
    obtain rfl : other = that := returns
    exact spared killed

theorem switch (buried : v.Buried) (core : Fin cfg.cores) : (v.switch core).Buried := by
  cases ready : v.ready with
  | nil =>
    constructor
    · intro that member; simpa using buried.marked that (by simpa [ready] using member)
    · intro that _; simp [ready]
    · rw [switch_log, ready]
      exact neverBack_snoc buried.never fun that _ => id
  | cons next rest =>
    constructor
    · intro that member; simpa using buried.marked that (by simpa [ready] using member)
    · intro that member
      have := buried.notReady that (by simpa [ready] using member)
      simp_all
    · rw [switch_log, ready]
      refine neverBack_snoc buried.never fun that killed returns => ?_
      obtain rfl : next = that := returns
      exact buried.notReady next killed (by simp [ready])

theorem kill (buried : v.Buried) (placed : v.Placed) (id : Fin cfg.threads) :
    (v.after (.kill id)).Buried where
  marked that member := by
    by_cases same : that = .app id
    · simp [Threads.after, same]
    · simpa [Threads.after, same] using buried.marked that (by simpa [Threads.after, same] using member)
  notReady that member := by
    by_cases same : that = .app id
    · subst same
      exact placed.nodup_ready.not_mem_erase
    · intro ready
      exact buried.notReady that (by simpa [Threads.after, same] using member)
        (List.mem_of_mem_erase ready)
  never := neverBack_snoc buried.never fun _ _ returns => returns

theorem wake {w : Waitingroom cfg} {that : Thread cfg} (buried : v.Buried)
    (spared : .killed that true ∉ v.log) : (v.wake w that).Buried := by
  obtain ⟨marked, notReady, never⟩ := buried.note (.woken w that) (by simp) fun _ returns => returns
  have taken : Buried ({ v with
      waiting := Function.update v.waiting w (v.waiting w).tail
      waitingroom := Function.update v.waitingroom that none }.note (.woken w that)) :=
    ⟨marked, notReady, never⟩
  exact taken.append (by simpa using spared)

/-- Every move but a kill, if it revives no thread killed while it ran. -/
theorem after {m : Move cfg} (buried : v.Buried) (allowed : v.Allows m)
    (noKill : ∀ id, m ≠ .kill id)
    (spared : ∀ that, m.Revives that → .killed that true ∉ v.log) : (v.after m).Buried := by
  cases m with
  | arrive id =>
    apply (buried.note (.readied (.app id)) (by simp) (fun _ => fun returns => returns)).append
    simpa using spared (.app id) rfl
  | start core => exact buried.switch core
  | yield core id =>
    refine (buried.append ?_).switch core
    intro killed
    have := buried.marked _ killed
    rw [allowed.2] at this
    cases this
  | abandon core that => exact buried.switch core
  | leave core that => exact (buried.note (.exited that) (by simp) fun _ => fun returns => returns).switch core
  | wait core w id =>
    have joined : (v.join w (.app id)).Buried := by
      obtain ⟨marked, notReady, never⟩ := buried.note (.blocked w (.app id)) (by simp) fun _ => fun returns => returns
      exact ⟨marked, notReady, never⟩
    exact joined.switch core
  | pass sem that =>
    obtain ⟨marked, notReady, never⟩ := buried.note (.passed sem that) (by simp) fun _ => fun returns => returns
    exact ⟨marked, notReady, never⟩
  | increment sem count =>
    obtain ⟨marked, notReady, never⟩ := buried.note (.signalled sem) (by simp) fun _ => fun returns => returns
    exact ⟨marked, notReady, never⟩
  | hand sem that =>
    have spared := spared that rfl
    exact (buried.note (.signalled sem) (by simp) fun _ returns => returns).wake (by simpa using spared)
  | ring w that => exact buried.wake (spared that rfl)
  | kill id => exact absurd rfl (noKill id)

end Buried

theorem killed_after {m : Move cfg} (noKill : ∀ id, m ≠ .kill id) {that : Thread cfg}
    (killed : .killed that true ∈ (v.after m).log) : .killed that true ∈ v.log := by
  have switched {v : Threads cfg} {core : Fin cfg.cores}
      (killed : .killed that true ∈ (v.switch core).log) : .killed that true ∈ v.log := by
    cases ready : v.ready <;> simpa [ready] using killed
  cases m with
  | start core | abandon core => exact switched killed
  | yield core id | leave core _ | wait core w id => simpa using switched killed
  | arrive | pass | increment | hand | ring => simpa [Threads.after] using killed
  | kill id => exact absurd rfl (noKill id)

end Threads

namespace Threads

variable {v v' v'' : Threads cfg}

/-- The log only grows, and a thread that none of the new events returns comes neither
to the ready list nor to a core. -/
def Recorded (v v' : Threads cfg) : Prop :=
  ∃ events, v'.log = v.log ++ events ∧
    ∀ id, (∀ event ∈ events, ¬ event.Returns (.app id)) →
      (.app id ∈ v'.ready → .app id ∈ v.ready) ∧
      ∀ core, v'.life core = some (.app id) → v.life core = some (.app id)

namespace Recorded

theorem refl (v : Threads cfg) : v.Recorded v := ⟨[], by simp, fun _ _ => ⟨id, fun _ => id⟩⟩

theorem trans (first : v.Recorded v') (second : v'.Recorded v'') : v.Recorded v'' := by
  obtain ⟨events, log, stays⟩ := first
  obtain ⟨more, log', stays'⟩ := second
  refine ⟨events ++ more, by rw [log', log, List.append_assoc], fun id silent => ?_⟩
  have before := stays id fun event member => silent event (List.mem_append_left _ member)
  have later := stays' id fun event member => silent event (List.mem_append_right _ member)
  exact ⟨fun ready => before.1 (later.1 ready), fun core on => before.2 core (later.2 core on)⟩

theorem note (v : Threads cfg) (event : Event cfg) : v.Recorded (v.note event) :=
  ⟨[event], rfl, fun _ _ => ⟨id, fun _ => id⟩⟩

theorem append (v : Threads cfg) (that : Thread cfg) : v.Recorded (v.append that) := by
  refine ⟨[.appended that], rfl, fun id silent => ⟨fun ready => ?_, fun _ on => on⟩⟩
  have other : that ≠ .app id := silent _ (List.mem_singleton_self _)
  simpa [other.symm] using ready

theorem switch (v : Threads cfg) (core : Fin cfg.cores) : v.Recorded (v.switch core) := by
  refine ⟨_, switch_log v core, fun id silent => ⟨fun ready => ?_, fun cpu on => ?_⟩⟩
  · exact List.mem_of_mem_tail (by simpa using ready)
  · by_cases here : cpu = core
    · subst here
      cases ready : v.ready with
      | nil => simp [ready] at on
      | cons next rest =>
        have other : next ≠ .app id := silent (.dispatched cpu next) (by simp [ready])
        simp [ready, other] at on
    · simpa [here] using on

/-- A step that only takes threads off the ready list. -/
theorem shrink {event : Event cfg} (log : v'.log = v.log ++ [event])
    (ready : ∀ that ∈ v'.ready, that ∈ v.ready) (life : v'.life = v.life) : v.Recorded v' :=
  ⟨[event], log, fun _ _ => ⟨ready _, fun core on => by rwa [life] at on⟩⟩

theorem wake (v : Threads cfg) (w : Waitingroom cfg) (that : Thread cfg) :
    v.Recorded (v.wake w that) := by
  let taken := { v with
    waiting := Function.update v.waiting w (v.waiting w).tail
    waitingroom := Function.update v.waitingroom that none }.note (.woken w that)
  have first : v.Recorded taken := shrink rfl (fun _ => id) rfl
  exact first.trans (append taken that)

theorem after (v : Threads cfg) (m : Move cfg) : v.Recorded (v.after m) := by
  cases m with
  | arrive id => exact (note v _).trans (append _ _)
  | start core | abandon core _ => exact switch v core
  | yield core id => exact (append v _).trans (switch _ core)
  | leave core that => exact (note v _).trans (switch _ core)
  | wait core w id =>
    have joined : v.Recorded (v.join w (.app id)) := shrink rfl (fun _ ready => ready) rfl
    exact joined.trans (switch _ core)
  | pass | increment => exact shrink rfl (fun _ => id) rfl
  | hand sem that => exact (note v _).trans (wake _ _ that)
  | ring w that => exact wake v w that
  | kill id => exact shrink rfl (fun _ => List.mem_of_mem_erase) rfl

end Recorded
end Threads

section Runs

variable {Q : Type} [ThreadQueues cfg Q] {s after : Kernel cfg Q} {core : Fin cfg.cores}
  {op : Op cfg} {m : Move cfg} {that : Thread cfg}

/-- A move that revives a thread belongs to a call that does. -/
theorem makes_revives (makes : op.Makes core s m) (revives : m.Revives that) :
    op.Revives core s that := by
  cases op with
  | ready other =>
    obtain ⟨id, rfl, rfl⟩ := makes
    exact revives
  | v sem =>
    rcases makes with rfl | ⟨other, head, rfl⟩
    · exact revives.elim
    · obtain rfl : other = that := revives
      exact head
  | ring bell | destroy w =>
    obtain ⟨other, waits, rfl⟩ := makes
    obtain rfl : other = that := revives
    exact waits
  | check =>
    obtain ⟨bell, due, other, waits, rfl⟩ := makes
    obtain rfl : other = that := revives
    exact ⟨bell, due, waits⟩
  | watch =>
    rcases makes with ⟨first, bell, due, other, waits, rfl⟩ | ⟨_, rfl⟩ | ⟨_, rfl⟩
    · obtain rfl : other = that := revives
      exact ⟨first, bell, due, waits⟩
    · exact revives.elim
    · exact revives.elim
  | resume | assassin | p =>
    rcases makes with ⟨_, rfl⟩ | ⟨_, rfl⟩ <;> exact revives.elim
  | schedule =>
    obtain rfl : m = .start core := makes
    exact revives.elim
  | exit | sleep =>
    obtain ⟨_, rfl⟩ := makes
    exact revives.elim
  | kill other =>
    obtain ⟨_, _, rfl⟩ := makes
    exact revives.elim

theorem buried_step [LawfulThreadQueues cfg Q] (good : s.Good) (buried : s.view.Buried)
    (leaves : LeavesKilled s (core, op)) (step : s.step (core, op) = some after) :
    after.view.Buried := by
  by_cases kills : ∃ that, op = .kill that
  · obtain ⟨that, rfl⟩ := kills
    obtain ⟨⟨id, rfl⟩, eq⟩ := Kernel.step_eq_some.mp step
    obtain ⟨result, killed, _, view⟩ := kill_spec good id
    obtain rfl : after = result := Except.ok.inj (eq.symm.trans killed)
    rw [view]
    exact buried.kill good.placed id
  · have noKill {m : Move cfg} (makes : op.Makes core s m) (id : Fin cfg.threads) : m ≠ .kill id :=
      makes_noKill (fun that eq => kills ⟨that, eq⟩) makes id
    -- Within the call nobody is killed, so the condition on its first state suffices.
    refine (step_invariant (fun v => v.Buried ∧ ∀ that, .killed that true ∈ v.log →
      .killed that true ∈ s.log) good ?_ step ⟨buried, fun _ h => h⟩).1
    rintro v m placed ⟨buried, before⟩ makes allowed
    refine ⟨buried.after allowed (noKill makes) ?_, fun that killed => ?_⟩
    · intro that revives killed
      exact leaves that (before that killed) (makes_revives makes revives)
    · exact before that (Threads.killed_after (noKill makes) killed)

theorem step_recorded [LawfulThreadQueues cfg Q] (good : s.Good)
    (step : s.step (core, op) = some after) : s.view.Recorded after.view :=
  step_invariant s.view.Recorded good
    (fun v m _ here _ _ => here.trans (.after v m)) step (.refl _)

theorem run_recorded [LawfulThreadQueues cfg Q] {calls : List (Fin cfg.cores × Op cfg)}
    (good : s.Good) (run : Run.exec Kernel.step s calls = some after) :
    s.view.Recorded after.view := by
  refine (Run.invariant (fun t => t.Good ∧ s.view.Recorded t.view) ?_ run ⟨good, .refl _⟩).2
  rintro t ⟨core, op⟩ next ⟨good, recorded⟩ step
  exact ⟨(step_moves good step).1, recorded.trans (step_recorded good step)⟩

/-- What the log says about a call that kills a running thread: from then on the thread
is not on the ready list, and on no core that it was not on then. -/
theorem neverBack_stays [LawfulThreadQueues cfg Q] {id : Fin cfg.threads} {state : Kernel cfg Q}
    {later : List (Fin cfg.cores × Op cfg)} (good : s.Good) (runs : ∃ c, s.lifePointer c = some (.app id))
    (step : s.step (core, .kill (.app id)) = some after)
    (reached : Run.exec Kernel.step after later = some state) (never : NeverBack state.log) :
    .app id ∉ ready state.queues ∧
      ∀ c, state.lifePointer c = some (.app id) → s.lifePointer c = some (.app id) := by
  obtain ⟨_, eq⟩ := Kernel.step_eq_some.mp step
  obtain ⟨result, killed, _, view⟩ := kill_spec good id
  obtain rfl : after = result := Except.ok.inj (eq.symm.trans killed)
  have running : s.view.running (.app id) = true := decide_eq_true runs
  obtain ⟨events, log, stays⟩ := run_recorded (step_moves good step).1 reached
  have split : state.log = s.log ++ .killed (.app id) true :: events := by
    rw [show state.log = _ from log, view]
    simp only [Threads.after, Threads.note_log, running]
    simp [Kernel.view]
  obtain ⟨notReady, notOn⟩ := stays id (never _ _ _ split)
  rw [view] at notReady notOn
  exact ⟨fun member => good.placed.nodup_ready.not_mem_erase (notReady member), notOn⟩

theorem buried_boot (counter : Fin cfg.semaphores → Nat) :
    (Kernel.boot (.new : Pointers cfg) counter).view.Buried where
  marked that member := by simp [Kernel.view, Kernel.boot] at member
  notReady that member := by simp [Kernel.view, Kernel.boot] at member
  never that before after split := by simp [Kernel.view, Kernel.boot] at split

end Runs

/-- In a run whose calls revive no thread that was killed while it ran, a thread
killed while it runs is never again put on the ready list and never dispatched. -/
theorem killed_never_back (cfg : Config) (counter : Fin cfg.semaphores → Nat)
    (calls : List (Fin cfg.cores × Op cfg)) (final : Kernel cfg (Pointers cfg))
    (run : Run.exec Kernel.step (Kernel.boot .new counter) calls = some final)
    (leaves : Run.Along Kernel.step LeavesKilled (Kernel.boot (.new : Pointers cfg) counter) calls) :
    NeverBack final.log := by
  have good_buried := Run.invariant_along
    (fun (s : Kernel cfg (Pointers cfg)) => s.Good ∧ s.view.Buried)
    (fun s call next good leaves step => ⟨(step_moves good.1 step).1,
      buried_step good.1 good.2 leaves step⟩)
    run leaves ⟨good_boot counter, buried_boot counter⟩
  exact good_buried.2.never

/-- The victim runs on the second core and leaves it with the interrupt. -/
theorem killed_never_back_two_cores :
    ∃ final : Kernel ⟨2, 2, 1, 0⟩ (Pointers ⟨2, 2, 1, 0⟩),
      Run.exec Kernel.step (Kernel.boot .new fun _ => 0)
        [(0, .ready (.app 0)), (0, .ready (.app 1)), (0, .schedule), (1, .schedule),
          (0, .kill (.app 1)), (1, .assassin), (0, .resume), (1, .resume)] = some final ∧
      .killed (.app 1) true ∈ final.log ∧ NeverBack final.log := by
  have never := killed_never_back ⟨2, 2, 1, 0⟩ (fun _ => 0)
    [(0, .ready (.app 0)), (0, .ready (.app 1)), (0, .schedule), (1, .schedule),
      (0, .kill (.app 1)), (1, .assassin), (0, .resume), (1, .resume)] _ rfl (by decide)
  exact ⟨_, rfl, by decide, never⟩

/-- The victim runs on the second core, blocks before the interrupt arrives, and is
signalled: it is appended to the ready list again and dispatched. -/
theorem killed_thread_dispatched :
    ∃ final : Kernel ⟨2, 2, 1, 0⟩ (Pointers ⟨2, 2, 1, 0⟩),
      Run.exec Kernel.step (Kernel.boot .new fun _ => 0)
        [(0, .ready (.app 0)), (0, .ready (.app 1)), (0, .schedule), (1, .schedule),
          (0, .kill (.app 1)), (1, .p 0), (1, .assassin), (0, .v 0), (1, .resume)] = some final ∧
      final.killFlag (.app 1) = true ∧ final.lifePointer 1 = some (.app 1) ∧
      ¬ NeverBack final.log := by
  refine ⟨_, rfl, rfl, rfl, fun never => ?_⟩
  exact never (.app 1) [.readied (.app 0), .appended (.app 0), .readied (.app 1),
    .appended (.app 1), .dispatched 0 (.app 0), .dispatched 1 (.app 1)] _ rfl
    (.appended (.app 1)) (by decide) rfl

end MPStuBS
