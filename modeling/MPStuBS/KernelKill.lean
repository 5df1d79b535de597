import MPStuBS.KernelPlacement

/-! `Scheduler::kill` forgets the waiting room of its victim but leaves the victim in
it. Whoever signals that room later finds a thread that names no room. -/
namespace MPStuBS

variable {cfg : Config}

open ThreadQueues

/-- A thread is in a waiting room if and only if it names that room. -/
def Kernel.Transparent {Q : Type} [ThreadQueues cfg Q] (s : Kernel cfg Q) : Prop :=
  ∀ that w, s.At that (.room w) ↔ s.waitingroom that = some w

/-- The call kills no thread that waits in a room. -/
def SparesWaiting {Q : Type} [ThreadQueues cfg Q] (s : Kernel cfg Q)
    (call : Fin cfg.cores × Op cfg) : Prop :=
  ∀ that, call.2 = .kill that → ∀ w, that ∉ waiting s.queues w

instance {Q : Type} [ThreadQueues cfg Q] (s : Kernel cfg Q) (call : Fin cfg.cores × Op cfg) :
    Decidable (SparesWaiting s call) :=
  inferInstanceAs (Decidable (∀ _, _))

section Runs

variable {Q : Type} [ThreadQueues cfg Q] [LawfulThreadQueues cfg Q] {s after : Kernel cfg Q}
  {core : Fin cfg.cores} {op : Op cfg}

omit [LawfulThreadQueues cfg Q] in
theorem transparent_iff (placed : s.view.Placed) : s.Transparent ↔ s.view.Signed := by
  constructor
  · intro transparent that w member
    exact (transparent that w).mp member
  · intro signed that w
    exact ⟨signed that w, placed.named that w⟩

theorem moves_signed {v v' : Threads cfg} {moves : List (Move cfg)}
    (noKill : ∀ m ∈ moves, ∀ id, m ≠ .kill id) (run : Run.exec Threads.move v moves = some v')
    (placed : v.Placed) (signed : v.Signed) : v'.Signed := by
  refine (Run.invariant_along (fun v => v.Placed ∧ v.Signed) ?_ run
    (Run.along_of_forall v noKill) ⟨placed, signed⟩).2
  rintro v m next ⟨placed, signed⟩ spared eq
  obtain ⟨allowed, rfl⟩ := Threads.move_eq_some.mp eq
  exact ⟨placed.after allowed, signed.after allowed placed fun id eq => absurd eq (spared id)⟩

theorem signed_step (good : s.Good) (signed : s.view.Signed) (spares : SparesWaiting s (core, op))
    (step : s.step (core, op) = some after) : after.view.Signed := by
  by_cases kills : ∃ that, op = .kill that
  · obtain ⟨that, rfl⟩ := kills
    obtain ⟨⟨id, rfl⟩, eq⟩ := Kernel.step_eq_some.mp step
    obtain ⟨_, killed, _, view⟩ := kill_spec good id
    obtain rfl := Except.ok.inj (killed.symm.trans eq)
    rw [view]
    apply signed.after (m := .kill id) trivial good.placed
    rintro other same w
    cases same
    exact spares _ rfl w
  · obtain ⟨_, moves, made, run⟩ := step_moves good step
    refine moves_signed (fun m member => ?_) run good.placed signed
    exact makes_noKill (fun that eq => kills ⟨that, eq⟩) (made m member)

/-- As long as every waiting thread names its room, no call follows a null pointer. -/
theorem no_nullPointer (good : s.Good) (signed : s.view.Signed) (granted : op.Granted core s) :
    op.exec core s ≠ .error .nullPointer := by
  intro fails
  by_cases kills : ∃ that, op = .kill that
  · obtain ⟨that, rfl⟩ := kills
    obtain ⟨id, rfl⟩ := granted
    obtain ⟨_, killed, _⟩ := kill_spec good id
    have := fails.symm.trans killed
    simp at this
  · have outcome := exec_outcome good op granted
    rw [fails] at outcome
    obtain ⟨moves, middle, made, run, w, that, head, nameless⟩ := outcome
    have names : middle.Signed := moves_signed (fun m member =>
      makes_noKill (fun that eq => kills ⟨that, eq⟩) (made m member)) run good.placed signed
    have named := names that w (List.mem_of_mem_head? head)
    rw [nameless] at named
    cases named

/-- Killing a waiting thread is never transparent. -/
theorem kill_waiting {that : Thread cfg} {w : Waitingroom cfg} (good : s.Good)
    (waits : that ∈ waiting s.queues w) (step : s.step (core, .kill that) = some after) :
    ¬ after.Transparent := by
  obtain ⟨⟨id, rfl⟩, eq⟩ := Kernel.step_eq_some.mp step
  obtain ⟨result, killed, _, view⟩ := kill_spec good id
  obtain rfl : after = result := Except.ok.inj (eq.symm.trans killed)
  intro transparent
  have stays : after.At (.app id) (.room w) := by
    have same := congrFun (congrArg Threads.waiting view) w
    rw [show after.At (.app id) (.room w) = (.app id ∈ after.view.waiting w) from rfl, same]
    exact waits
  have names := (transparent _ _).mp stays
  have forgets := congrFun (congrArg Threads.waitingroom view) (.app id)
  simp [Threads.after] at forgets
  rw [show after.view.waitingroom = after.waitingroom from rfl, names] at forgets
  cases forgets

end Runs

/-- In every state of a run the waiting rooms and the threads agree, and no call
dereferences a null pointer, if and only if no call of the run kills a thread that
waits in a room. -/
theorem kill_transparent (cfg : Config) (counter : Fin cfg.semaphores → Nat)
    (calls : List (Fin cfg.cores × Op cfg)) (final : Kernel cfg (Pointers cfg))
    (run : Run.exec Kernel.step (Kernel.boot .new counter) calls = some final) :
    (∀ before rest (state : Kernel cfg (Pointers cfg)), calls = before ++ rest →
      Run.exec Kernel.step (Kernel.boot .new counter) before = some state →
      state.Transparent ∧ ∀ core (op : Op cfg), op.Granted core state →
        op.exec core state ≠ .error .nullPointer) ↔
    Run.Along Kernel.step SparesWaiting (Kernel.boot (.new : Pointers cfg) counter) calls := by
  have goodBefore {before : List (Fin cfg.cores × Op cfg)} {state : Kernel cfg (Pointers cfg)}
      (reached : Run.exec Kernel.step (Kernel.boot .new counter) before = some state) :
      state.Good := by
    refine Run.invariant Kernel.Good (fun s call next good step => ?_) reached (good_boot counter)
    exact (step_moves good step).1
  constructor
  · intro holds
    rw [Run.along_iff]
    rintro before ⟨core, op⟩ rest middle rfl reached that rfl w waits
    obtain ⟨next, stepped, later⟩ : ∃ next, middle.step (core, .kill that) = some next ∧
        Run.exec Kernel.step next rest = some final := by
      obtain ⟨_, first, second⟩ := Run.exec_append_eq_some.mp run
      obtain rfl := Option.some.inj (reached.symm.trans first)
      exact Run.exec_cons_eq_some.mp second
    apply kill_waiting (goodBefore reached) waits stepped
    apply (holds (before ++ [(core, .kill that)]) rest next (by simp) ?_).1
    exact Run.exec_append_eq_some.mpr ⟨middle, reached, by rw [Run.exec_cons, stepped]; rfl⟩
  · rintro along before rest state rfl reached
    have spared := (Run.along_append.mp along).1
    obtain ⟨good, signed⟩ := Run.invariant_along (fun s => s.Good ∧ s.view.Signed)
      (fun s call next good spares step => ⟨(step_moves good.1 step).1,
        signed_step good.1 good.2 spares step⟩)
      reached spared ⟨good_boot counter, (steady_boot counter).signed⟩
    exact ⟨(transparent_iff good.placed).mpr signed, fun core op => no_nullPointer good signed⟩

/-- A thread is killed on the ready list, another one while it runs. -/
theorem kill_transparent_two_kills :
    ∃ final : Kernel ⟨1, 3, 1, 0⟩ (Pointers ⟨1, 3, 1, 0⟩),
      Run.exec Kernel.step (Kernel.boot .new fun _ => 0)
        [(0, .ready (.app 0)), (0, .ready (.app 1)), (0, .ready (.app 2)), (0, .schedule),
          (0, .p 0), (0, .kill (.app 2)), (0, .kill (.app 1)), (0, .v 0)] = some final ∧
      final.Transparent := by
  have transparent := (kill_transparent ⟨1, 3, 1, 0⟩ (fun _ => 0)
    [(0, .ready (.app 0)), (0, .ready (.app 1)), (0, .ready (.app 2)), (0, .schedule),
      (0, .p 0), (0, .kill (.app 2)), (0, .kill (.app 1)), (0, .v 0)] _ rfl).mpr (by decide)
  exact ⟨_, rfl, (transparent _ [] _ (List.append_nil _).symm rfl).1⟩

/-- The first thread blocks and is killed; it stays in the waiting room but names none,
and the next signal dereferences the null pointer. -/
theorem killed_waiter_signalled :
    ∃ state : Kernel ⟨1, 2, 1, 0⟩ (Pointers ⟨1, 2, 1, 0⟩),
      Run.exec Kernel.step (Kernel.boot .new fun _ => 0)
        [(0, .ready (.app 0)), (0, .ready (.app 1)), (0, .schedule), (0, .p 0),
          (0, .kill (.app 0))] = some state ∧
      state.At (.app 0) (.room (.semaphore 0)) ∧ state.waitingroom (.app 0) = none ∧
      (Op.v 0).Granted 0 state ∧ (Op.v 0).exec 0 state = .error .nullPointer :=
  ⟨_, rfl, by decide, rfl, trivial, rfl⟩

end MPStuBS
