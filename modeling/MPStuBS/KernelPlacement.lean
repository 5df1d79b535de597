import MPStuBS.KernelMoves

/-! Runs without kills: where a thread is follows from the history, and threads are
dispatched in the order in which they became ready. -/
namespace MPStuBS

variable {cfg : Config}

open ThreadQueues

/-- Readied and not exited since. -/
def aliveAfter (that : Thread cfg) (before : Bool) : Event cfg → Bool
  | .readied other => if other = that then true else before
  | .exited other => if other = that then false else before
  | _ => before

def alive (log : List (Event cfg)) (that : Thread cfg) : Bool := log.foldl (aliveAfter that) false

def appends (log : List (Event cfg)) : List (Thread cfg) :=
  log.filterMap fun | .appended that => some that | _ => none

def dispatches (log : List (Event cfg)) : List (Thread cfg) :=
  log.filterMap fun | .dispatched _ that => some that | _ => none

namespace Threads

variable {v : Threads cfg} {that other : Thread cfg} {core : Fin cfg.cores} {w : Waitingroom cfg}

@[simp] theorem alive_append (log more : List (Event cfg)) (that : Thread cfg) :
    alive (log ++ more) that = more.foldl (aliveAfter that) (alive log that) := by
  simp [alive, List.foldl_append]

theorem alive_switch (v : Threads cfg) (core : Fin cfg.cores) (that : Thread cfg) :
    alive (v.switch core).log that = alive v.log that := by
  rw [switch_log, alive_append]
  cases v.ready.head? <;> rfl

/-- What was appended is what was dispatched and then what is still ready. -/
def Fifo (v : Threads cfg) : Prop := appends v.log = dispatches v.log ++ v.ready

theorem Fifo.note (fifo : v.Fifo) (event : Event cfg) (notAppended : appends [event] = [])
    (notDispatched : dispatches [event] = []) : (v.note event).Fifo := by
  simp only [Fifo, appends, dispatches, note_log, note_ready, List.filterMap_append] at *
  simp [fifo, notAppended, notDispatched]

theorem Fifo.append (fifo : v.Fifo) (that : Thread cfg) : (v.append that).Fifo := by
  simp only [Fifo, appends, dispatches, append_log, append_ready, List.filterMap_append] at *
  simp [fifo]

theorem Fifo.switch (fifo : v.Fifo) (core : Fin cfg.cores) : (v.switch core).Fifo := by
  simp only [Fifo, appends, dispatches, switch_log, switch_ready, List.filterMap_append] at *
  cases ready : v.ready <;> simp [fifo, ready]

/-- The rooms a thread waits in and the room it names are the same. -/
def Signed (v : Threads cfg) : Prop := ∀ that w, that ∈ v.waiting w → v.waitingroom that = some w

theorem Signed.join (signed : v.Signed) (w : Waitingroom cfg) (apart : ∀ w, that ∉ v.waiting w) :
    (v.join w that).Signed := by
  intro x other member
  by_cases moved : x = that
  · subst moved
    by_cases same : other = w
    · simp [same]
    · exact absurd (by simpa [same] using member) (apart other)
  · have member : x ∈ v.waiting other := by
      by_cases same : other = w
      · subst same; simpa [moved] using member
      · simpa [same] using member
    simpa [moved] using signed x other member

theorem Signed.wake (signed : v.Signed) (placed : v.Placed)
    (first : (v.waiting w).head? = some that) : (v.wake w that).Signed := by
  intro x other member
  obtain ⟨rest, waiting⟩ := List.head?_eq_some_iff.mp first
  have before : x ∈ v.waiting other := by
    by_cases same : other = w
    · subst same; exact List.mem_of_mem_tail (by simpa using member)
    · simpa [same] using member
  have stays : x ≠ that := by
    rintro rfl
    have here : x ∈ v.waiting w := by simp [waiting]
    obtain rfl := placed.room_unique before here
    have nodup := placed.nodup_waiting other
    simp [waiting] at member nodup
    exact nodup.1 member
  simpa [stays] using signed x other before

/-- What holds of the threads as long as none was killed. -/
structure Steady (v : Threads cfg) : Prop where
  unkilled : ∀ that, v.killFlag that = false
  counted : ∀ id, v.weight (.app id) = if alive v.log (.app id) then 1 else 0
  signed : v.Signed
  fifo : v.Fifo

theorem alive_move (v : Threads cfg) (m : Move cfg) (that : Thread cfg) :
    alive (v.after m).log that = match m with
      | .arrive id => if .app id = that then true else alive v.log that
      | .leave _ other => if other = that then false else alive v.log that
      | _ => alive v.log that := by
  cases m <;> simp [after, alive_switch, aliveAfter, -switch_log]

theorem counted_after {m : Move cfg} (allowed : v.Allows m) (placed : v.Placed) (steady : v.Steady)
    (noKill : ∀ id, m ≠ .kill id) (id : Fin cfg.threads) :
    (v.after m).weight (.app id) = if alive (v.after m).log (.app id) then 1 else 0 := by
  have balance := weight_after allowed id
  have counted := steady.counted id
  rw [alive_move]
  cases m with
  | arrive other =>
    by_cases same : other = id
    · subst same
      have := weight_absent (v := v) allowed
      simp_all [departures, arrivals]
    · simp_all [departures, arrivals]
  | leave core that =>
    by_cases same : that = .app id
    · subst same
      have here := tally_le v (.app id) (.core core)
      have once := placed.once id
      simp only [tally, show v.life core = _ from allowed, if_true] at here
      simp only [departures, arrivals, if_true] at balance ⊢
      simp only [Bool.false_eq_true, if_false]
      omega
    · simp_all [departures, arrivals]
  | abandon core that =>
    have idle : that = .idlethread core := by simpa [steady.unkilled] using allowed.2
    subst idle
    simp_all [departures, arrivals]
  | kill other => exact absurd rfl (noKill other)
  | start | yield | wait | pass | increment | hand | ring => simp_all [departures, arrivals]

theorem Fifo.after {m : Move cfg} (fifo : v.Fifo) (noKill : ∀ id, m ≠ .kill id) :
    (v.after m).Fifo := by
  cases m with
  | arrive id => exact (fifo.note (.readied (.app id)) rfl rfl).append (.app id)
  | start core => exact fifo.switch core
  | yield core id => exact (fifo.append (.app id)).switch core
  | abandon core that => exact fifo.switch core
  | leave core that => exact (fifo.note (.exited that) rfl rfl).switch core
  | wait core w id =>
    exact Fifo.switch (v := v.join w (.app id)) (fifo.note (.blocked w (.app id)) rfl rfl) core
  | pass sem that => exact fifo.note (.passed sem that) rfl rfl
  | increment sem count => exact fifo.note (.signalled sem) rfl rfl
  | hand sem that =>
    have noted := (fifo.note (.signalled sem) rfl rfl).note
      (.woken (.semaphore sem) that) rfl rfl
    exact noted.append that
  | ring w that => exact (fifo.note (.woken w that) rfl rfl).append that
  | kill id => exact absurd rfl (noKill id)

theorem Signed.after {m : Move cfg} (signed : v.Signed) (allowed : v.Allows m) (placed : v.Placed)
    (harmless : ∀ id, m = .kill id → ∀ w, .app id ∉ v.waiting w) : (v.after m).Signed := by
  cases m with
  | arrive | pass | increment => exact signed
  | start | yield | abandon | leave => simpa [Threads.after, Signed] using signed
  | wait core w id =>
    have joined := signed.join w (placed.notWaiting_of_core allowed.1)
    simpa [Threads.after, Signed] using joined
  | hand sem that => exact Signed.wake (v := v.note _) signed (placed.note _) allowed.1
  | ring w that => exact signed.wake placed allowed.1
  | kill id =>
    intro that w member
    have other : that ≠ .app id := by
      rintro rfl; exact harmless id rfl w member
    simpa [Threads.after, other] using signed that w member

theorem killFlag_after {m : Move cfg} (noKill : ∀ id, m ≠ .kill id) :
    (v.after m).killFlag = v.killFlag := by
  cases m with
  | kill id => exact absurd rfl (noKill id)
  | _ => simp [Threads.after]

theorem Steady.after {m : Move cfg} (steady : v.Steady) (allowed : v.Allows m) (placed : v.Placed)
    (noKill : ∀ id, m ≠ .kill id) : (v.after m).Steady where
  unkilled := by rw [killFlag_after noKill]; exact steady.unkilled
  counted := counted_after allowed placed steady noKill
  signed := steady.signed.after allowed placed fun id eq => absurd eq (noKill id)
  fifo := steady.fifo.after noKill

/-- A thread of weight one is in exactly one place. -/
theorem place_unique (one : v.weight that = 1) :
    ∃! place, 0 < v.tally that place := by
  obtain ⟨place, _, positive⟩ := Finset.exists_ne_zero_of_sum_ne_zero (one.trans_ne one_ne_zero)
  refine ⟨place, Nat.pos_of_ne_zero positive, fun other also => ?_⟩
  by_contra distinct
  have := tally_add_le v that distinct
  have := Nat.pos_of_ne_zero positive
  simp only at also
  omega

end Threads

section Runs

variable {Q : Type} [ThreadQueues cfg Q] {core : Fin cfg.cores} {s : Kernel cfg Q} {op : Op cfg}
  {m : Move cfg}

theorem makes_noKill (notKill : ∀ that, op ≠ .kill that) (makes : op.Makes core s m)
    (id : Fin cfg.threads) : m ≠ .kill id := by
  rintro rfl
  cases op with
  | kill that => exact notKill that rfl
  | _ => simp [Op.Makes] at makes

/-- A thread lives from the call that readies it to the call in which it exits. -/
theorem step_alive [LawfulThreadQueues cfg Q] {after : Kernel cfg Q} (good : s.Good)
    (step : s.step (core, op) = some after) (that : Thread cfg) :
    alive after.log that = if op = .ready that then true
      else if op = .exit ∧ s.lifePointer core = some that then false
      else alive s.log that := by
  obtain ⟨granted, eq⟩ := Kernel.step_eq_some.mp step
  have kept (notReady : ∀ other, op ≠ .ready other) (notExit : op ≠ .exit) :
      alive after.log that = alive s.log that := by
    refine step_invariant (fun v => alive v.log that = alive s.log that) good ?_ step rfl
    rintro v m _ here makes _
    rw [Threads.alive_move, ← here]
    cases m with
    | arrive id => cases op <;> simp [Op.Makes] at makes; exact absurd rfl (notReady _)
    | leave _ other => cases op <;> simp [Op.Makes] at makes; exact absurd rfl notExit
    | _ => rfl
  cases op with
  | ready other =>
    obtain rfl := Except.ok.inj eq
    by_cases same : other = that <;>
      simp [Scheduler.ready, Scheduler.append, Kernel.note, aliveAfter, same]
  | exit =>
    obtain ⟨current, active⟩ := Option.ne_none_iff_exists'.mp granted
    obtain ⟨result, dispatched, _, view⟩ :=
      dispatch_spec (s := s.note (.exited current)) good.valid active
    simp only [Op.exec, Scheduler.exit, Dispatcher.active, active, dispatched] at eq
    obtain rfl := Except.ok.inj eq
    have log : alive result.log that = alive (s.note (.exited current)).log that := by
      rw [show result.log = result.view.log from rfl, view, Threads.alive_switch]
      rfl
    by_cases same : current = that <;> simp [log, Kernel.note, aliveAfter, active, same]
  | _ => simpa using kept (by simp) (by simp)

theorem at_iff (s : Kernel cfg Q) (that : Thread cfg) (place : Place cfg) :
    s.At that place ↔ 0 < s.view.tally that place := by
  cases place with
  | ready => exact List.count_pos_iff.symm
  | room w => exact List.count_pos_iff.symm
  | core core =>
    by_cases active : s.lifePointer core = some that <;>
      simp [Kernel.At, At, Threads.tally, Kernel.view, active]

theorem steady_boot (counter : Fin cfg.semaphores → Nat) :
    (Kernel.boot (.new : Pointers cfg) counter).view.Steady := by
  have lists := (Pointers.valid_new cfg).2
  have ready : ready (.new : Pointers cfg) = [] := congrFun lists none
  have waiting (w : Waitingroom cfg) : waiting (.new : Pointers cfg) w = [] := congrFun lists (some w)
  constructor
  · intro that; rfl
  · intro id
    apply Threads.weight_absent
    simp [Threads.Absent, Kernel.view, Kernel.boot, ready, waiting]
  · intro that w member
    simp [Kernel.view, Kernel.boot, waiting] at member
  · simp [Threads.Fifo, Kernel.view, Kernel.boot, ready, appends, dispatches]

end Runs

/-- The pointers always represent proper lists. A thread that was readied and has not
exited is once in exactly one of the ready list, the waiting rooms and the cores; in a
waiting room, its field names that room; idle threads are in no list; and the ready
list is first in, first out. -/
theorem threads_in_one_place (cfg : Config) (counter : Fin cfg.semaphores → Nat)
    (calls : List (Fin cfg.cores × Op cfg)) (final : Kernel cfg (Pointers cfg))
    (run : Run.exec Kernel.step (Kernel.boot .new counter) calls = some final)
    (noKill : ∀ call ∈ calls, ∀ that, call.2 ≠ .kill that) :
    final.queues.Valid ∧
    (∀ id, alive final.log (.app id) = true → ∃! place, final.At (.app id) place) ∧
    (∀ id, alive final.log (.app id) = false → final.Absent (.app id)) ∧
    (ready final.queues).Nodup ∧ (∀ w, (waiting final.queues w).Nodup) ∧
    (∀ that w, that ∈ waiting final.queues w → final.waitingroom that = some w) ∧
    (∀ core, .idlethread core ∉ ready final.queues ∧
      ∀ w, .idlethread core ∉ waiting final.queues w) ∧
    appends final.log = dispatches final.log ++ ready final.queues := by
  obtain ⟨⟨valid, placed⟩, steady⟩ := run_invariant Threads.Steady
    (fun _ call => ∀ that, call.2 ≠ .kill that)
    (fun s core op v m notKill placed steady makes allowed =>
      steady.after allowed placed (makes_noKill notKill makes))
    (good_boot counter) (steady_boot counter) (Run.along_of_forall _ noKill) run
  refine ⟨valid, ?_, ?_, placed.nodup_ready, placed.nodup_waiting, steady.signed, ?_, steady.fifo⟩
  · intro id lives
    simp only [at_iff]
    apply Threads.place_unique
    rw [steady.counted, show alive final.view.log _ = true from lives, if_pos rfl]
  · intro id gone
    have weightless : final.view.weight (.app id) = 0 := by
      rw [steady.counted, show alive final.view.log _ = false from gone]; rfl
    have nowhere (place : Place cfg) : ¬ final.At (.app id) place := by
      have := Threads.tally_le final.view (.app id) place
      rw [at_iff]; omega
    exact ⟨nowhere .ready, fun w => nowhere (.room w), fun core => nowhere (.core core)⟩
  · intro core
    exact ⟨placed.idleReady core, placed.idleRoom core⟩

/-- A thread blocks, another one wakes it and gives way to it. -/
theorem threads_in_one_place_two_threads :
    ∃ final : Kernel ⟨1, 2, 1, 0⟩ (Pointers ⟨1, 2, 1, 0⟩),
      Run.exec Kernel.step (Kernel.boot .new fun _ => 0)
        [(0, .ready (.app 0)), (0, .ready (.app 1)), (0, .schedule), (0, .p 0), (0, .v 0),
          (0, .resume)] = some final ∧
      final.lifePointer 0 = some (.app 0) ∧ (∃! place, final.At (.app 0) place) ∧
      ∃! place, final.At (.app 1) place := by
  have placement := threads_in_one_place ⟨1, 2, 1, 0⟩ (fun _ => 0)
    [(0, .ready (.app 0)), (0, .ready (.app 1)), (0, .schedule), (0, .p 0), (0, .v 0), (0, .resume)]
    _ rfl (by decide)
  exact ⟨_, rfl, rfl, placement.2.1 0 rfl, placement.2.1 1 rfl⟩

end MPStuBS
