import MPStuBS.KernelQueues
import MPStuBS.ThreadPlaces

/-! Every granted kernel operation is a sequence of moves. The view forgets the
pointers; the laws of the queues say that the operations do the same to the lists. -/
namespace MPStuBS

variable {cfg : Config} {Q : Type} [ThreadQueues cfg Q] [LawfulThreadQueues cfg Q]

open ThreadQueues LawfulThreadQueues

omit [LawfulThreadQueues cfg Q] in
def Kernel.view (s : Kernel cfg Q) : Threads cfg where
  ready := ready s.queues
  waiting := waiting s.queues
  waitingroom := s.waitingroom
  killFlag := s.killFlag
  counter := s.counter
  life := s.lifePointer
  log := s.log

/-- The queues are valid and no thread is in two places. -/
structure Kernel.Good (s : Kernel cfg Q) : Prop where
  valid : Valid s.queues
  placed : s.view.Placed

theorem moves_placed {v v' : Threads cfg} {moves : List (Move cfg)}
    (run : Run.exec Threads.move v moves = some v') (placed : v.Placed) : v'.Placed := by
  apply Run.invariant Threads.Placed ?_ run placed
  intro v m next placed eq
  obtain ⟨allowed, rfl⟩ := Threads.move_eq_some.mp eq
  exact placed.after allowed

/-- The result of an operation: the moves it made, or where it stopped. It stops at a
null pointer only if the thread it is about to wake names no waiting room. -/
def Outcome (makes : Move cfg → Prop) (hangs : Prop) (v : Threads cfg) :
    Except Fault (Kernel cfg Q) → Prop
  | .ok after => Valid after.queues ∧ ∃ moves, (∀ m ∈ moves, makes m) ∧
      Run.exec Threads.move v moves = some after.view
  | .error .endless => hangs
  | .error .nullPointer => ∃ moves middle, (∀ m ∈ moves, makes m) ∧
      Run.exec Threads.move v moves = some middle ∧
      ∃ w that, (middle.waiting w).head? = some that ∧ middle.waitingroom that = none

section Outcome

variable {makes : Move cfg → Prop} {hangs : Prop} {s after : Kernel cfg Q} {v : Threads cfg}

theorem Outcome.none (valid : Valid after.queues) (view : after.view = v) :
    Outcome makes hangs v (.ok after) :=
  ⟨valid, [], by simp, by rw [view]; rfl⟩

theorem Outcome.one {m : Move cfg} (made : makes m) (allowed : v.Allows m)
    (valid : Valid after.queues) (view : after.view = v.after m) :
    Outcome makes hangs v (.ok after) := by
  refine ⟨valid, [m], by simpa using made, ?_⟩
  rw [Run.exec_cons, Threads.move_eq_some.mpr ⟨allowed, view.symm⟩]
  rfl

theorem Outcome.bind {result : Except Fault (Kernel cfg Q)}
    {f : Kernel cfg Q → Except Fault (Kernel cfg Q)} (placed : v.Placed)
    (first : Outcome makes hangs v result)
    (later : ∀ middle : Kernel cfg Q, result = .ok middle → middle.Good →
      Outcome makes hangs middle.view (f middle)) :
    Outcome makes hangs v (result >>= f) := by
  cases result with
  | error fault => exact first
  | ok middle =>
    obtain ⟨valid, moves, made, run⟩ := first
    have second := later middle rfl ⟨valid, moves_placed run placed⟩
    show Outcome makes hangs v (f middle)
    have both (more : List (Move cfg)) (h : ∀ m ∈ more, makes m) : ∀ m ∈ moves ++ more, makes m := by
      intro m member
      exact (List.mem_append.mp member).elim (made m) (h m)
    match f middle, second with
    | .ok after, ⟨valid, more, made', run'⟩ =>
      exact ⟨valid, moves ++ more, both more made', Run.exec_append_eq_some.mpr ⟨_, run, run'⟩⟩
    | .error .endless, h => exact h
    | .error .nullPointer, ⟨more, stop, made', run', orphan⟩ =>
      exact ⟨moves ++ more, stop, both more made', Run.exec_append_eq_some.mpr ⟨_, run, run'⟩, orphan⟩

theorem Outcome.mono {makes' : Move cfg → Prop} {hangs' : Prop}
    {result : Except Fault (Kernel cfg Q)} (outcome : Outcome makes hangs v result)
    (sub : ∀ m, makes m → makes' m) (sub' : hangs → hangs') : Outcome makes' hangs' v result := by
  match result, outcome with
  | .ok after, ⟨valid, moves, made, run⟩ => exact ⟨valid, moves, fun m h => sub m (made m h), run⟩
  | .error .endless, h => exact sub' h
  | .error .nullPointer, ⟨moves, stop, made, rest⟩ =>
    exact ⟨moves, stop, fun m h => sub m (made m h), rest⟩

end Outcome

section Primitives

variable {s : Kernel cfg Q} {core : Fin cfg.cores} {that : Thread cfg}

theorem append_spec (valid : Valid s.queues) (notReady : that ∉ ready s.queues)
    (notWaiting : ∀ w, that ∉ waiting s.queues w) :
    Valid (Scheduler.append that s).queues ∧
      (Scheduler.append that s).view = s.view.append that := by
  obtain ⟨valid', ready', waiting'⟩ := readyEnqueue_spec valid that notReady notWaiting
  exact ⟨valid', by simp [Kernel.view, Scheduler.append, Kernel.note, Threads.append, Threads.note,
    ready', waiting']⟩

/-- `takeNext` and then running the thread it found. -/
theorem takeNext_spec (core : Fin cfg.cores) (valid : Valid s.queues) :
    Valid (Scheduler.takeNext core s).2.queues ∧
      (Scheduler.takeNext core s).2.lifePointer = s.lifePointer ∧
      (Dispatcher.setActive core (Scheduler.takeNext core s).1 (Scheduler.takeNext core s).2).view =
        s.view.switch core := by
  obtain ⟨queues, eq, valid', ready', waiting'⟩ := readyDequeue_spec valid
  cases nodes : (ready s.queues : List (Thread cfg)) with
  | nil =>
    rw [nodes] at eq
    simp [Scheduler.takeNext, eq, valid', Kernel.view, Dispatcher.setActive, Threads.switch, nodes,
      Kernel.note, Threads.note, ready', waiting']
  | cons next rest =>
    rw [nodes] at eq
    simp [Scheduler.takeNext, eq, valid', Kernel.view, Dispatcher.setActive, Threads.switch, nodes,
      Kernel.note, Threads.note, ready', waiting']

theorem dispatch_spec (valid : Valid s.queues) (active : s.lifePointer core = some that) :
    ∃ after, Dispatcher.dispatch core (Scheduler.takeNext core s).1
        (Scheduler.takeNext core s).2 = .ok after ∧
      Valid after.queues ∧ after.view = s.view.switch core := by
  obtain ⟨valid', life, view⟩ := takeNext_spec core valid
  refine ⟨_, ?_, ?_, view⟩
  · simp only [Dispatcher.dispatch, Dispatcher.active, life, active]
  · exact valid'

/-- Waking the first thread of a room, which has been taken out of the room already:
the second removal finds nothing more to do. -/
theorem wakeup_spec {w : Waitingroom cfg} {queues : Q} (good : s.Good)
    (valid : Valid queues) (readySame : ready queues = ready s.queues)
    (first : (waiting s.queues w).head? = some that)
    (taken : waiting queues = Function.update (waiting s.queues) w (waiting s.queues w).tail) :
    (s.waitingroom that = none ∧
      Scheduler.wakeup core that { s with queues := queues } = .error .nullPointer) ∨
    s.waitingroom that = some w ∧ ∃ after, Valid after.queues ∧ after.view = s.view.wake w that ∧
      Scheduler.wakeup core that { s with queues := queues } = .ok after := by
  have placed := good.placed
  have member : that ∈ s.view.waiting w := List.mem_of_mem_head? first
  cases names : s.waitingroom that with
  | none => exact .inl ⟨rfl, by simp [Scheduler.wakeup, names]⟩
  | some other =>
    obtain rfl : other = w := placed.room_unique (placed.named that other names) member
    obtain ⟨rest, nodes⟩ := List.head?_eq_some_iff.mp first
    have gone : that ∉ rest := by
      have nodup := placed.nodup_waiting other
      rw [show s.view.waiting other = that :: rest from nodes] at nodup
      exact (List.nodup_cons.mp nodup).1
    obtain ⟨final, removed, validFinal, readyFinal, waitingFinal⟩ := roomRemove_spec valid other that
    have kept : waiting final = waiting queues := by
      rw [waitingFinal, taken, nodes]
      simp [List.erase_of_not_mem gone]
    have outside (w : Waitingroom cfg) : that ∉ waiting final w := by
      rw [kept, taken, nodes]
      by_cases same : w = other
      · simpa [same] using gone
      · simp only [ne_eq, same, not_false_eq_true, Function.update_of_ne]
        intro there
        exact same (placed.room_unique there member)
    have notReady : that ∉ ready final := by
      rw [readyFinal, readySame]; exact placed.notReady_of_room member
    obtain ⟨validAfter, appended⟩ := append_spec (s := ({ setWaitingroom that none { s with
      queues := queues } with queues := final } : Kernel cfg Q).note (.woken other that))
      validFinal notReady outside
    refine .inr ⟨rfl, { Scheduler.append that (({ setWaitingroom that none { s with
      queues := queues } with queues := final } : Kernel cfg Q).note (.woken other that)) with
      wakeup := fun cpu => if cpu = core then s.wakeup cpu else true }, validAfter, ?_, ?_⟩
    · apply appended.trans
      simp [Kernel.view, Threads.wake, Threads.append, Threads.note, Kernel.note, setWaitingroom,
        readyFinal, readySame, kept, taken]
    · simp only [Scheduler.wakeup, names, Waitingroom.remove]
      rw [show (setWaitingroom that none { s with queues := queues }).queues = queues from rfl,
        removed]
      rfl

end Primitives

/-- The bells that the next `Bellringer::check` finds due. -/
def Kernel.Due (s : Kernel cfg Q) (bell : Fin cfg.bells) : Prop :=
  bell ∈ (s.bellringer.check.map Prod.snd).getD []

instance (s : Kernel cfg Q) (bell : Fin cfg.bells) : Decidable (s.Due bell) :=
  inferInstanceAs (Decidable (bell ∈ _))

/-- The moves an operation consists of. -/
def Op.Makes (core : Fin cfg.cores) (s : Kernel cfg Q) : Op cfg → Move cfg → Prop
  | .ready that, m => ∃ id, that = .app id ∧ m = .arrive id
  | .schedule, m => m = .start core
  | .resume, m | .assassin, m => (∃ id, m = .yield core id) ∨ ∃ that, m = .abandon core that
  | .exit, m => ∃ that, m = .leave core that
  | .kill that, m => ∃ id, that = .app id ∧ m = .kill id
  | .p sem, m => (∃ that, m = .pass sem that) ∨ ∃ id, m = .wait core (.semaphore sem) id
  | .v sem, m => m = .increment sem (s.counter sem) ∨
      ∃ that, (waiting s.queues (.semaphore sem)).head? = some that ∧ m = .hand sem that
  | .sleep bell _, m => ∃ id, m = .wait core (.bell bell) id
  | .ring bell, m => ∃ that ∈ waiting s.queues (.bell bell), m = .ring (.bell bell) that
  | .destroy w, m => ∃ that ∈ waiting s.queues w, m = .ring w that
  | .check, m => ∃ bell, s.Due bell ∧
      ∃ that ∈ waiting s.queues (.bell bell), m = .ring (.bell bell) that
  | .watch, m => (core.val = 0 ∧ ∃ bell, s.Due bell ∧
      ∃ that ∈ waiting s.queues (.bell bell), m = .ring (.bell bell) that) ∨
      (∃ id, m = .yield core id) ∨ ∃ that, m = .abandon core that

/-- Only the bellringer can loop. -/
def Op.Hangs : Op cfg → Prop
  | .sleep .. | .check | .watch => True
  | _ => False

section Operations

variable {s : Kernel cfg Q} {core : Fin cfg.cores} {that : Thread cfg} {hangs : Prop}
  {makes : Move cfg → Prop}

theorem ready_outcome (good : s.Good) {id : Fin cfg.threads} (absent : s.Absent (.app id)) :
    Outcome (· = .arrive id) hangs s.view (.ok (Scheduler.ready (.app id) s)) := by
  obtain ⟨valid, view⟩ := append_spec (s := s.note (.readied (.app id))) good.valid absent.1 absent.2.1
  exact .one rfl absent valid view

theorem schedule_outcome (good : s.Good) (off : s.lifePointer core = none) :
    Outcome (· = .start core) hangs s.view (.ok (Scheduler.schedule core s)) := by
  obtain ⟨valid, _, view⟩ := takeNext_spec core good.valid
  exact .one rfl off valid view

theorem resume_outcome (good : s.Good) (on : s.lifePointer core ≠ none) :
    Outcome (fun m => (∃ id, m = .yield core id) ∨ ∃ that, m = .abandon core that) hangs s.view
      (Scheduler.resume core s) := by
  obtain ⟨that, active⟩ := Option.ne_none_iff_exists'.mp on
  simp only [Scheduler.resume, Dispatcher.active, active]
  by_cases stays : s.killFlag that = false ∧ that ≠ .idlethread core
  · obtain ⟨alive, notIdle⟩ := stays
    cases that with
    | idlethread other => exact absurd (by rw [good.placed.idleCore core other active]) notIdle
    | app id =>
      obtain ⟨valid, view⟩ := append_spec good.valid (good.placed.notReady_of_core active)
        (good.placed.notWaiting_of_core active)
      obtain ⟨after, eq, valid, dispatched⟩ := dispatch_spec valid active
      rw [if_pos ⟨alive, notIdle⟩, eq]
      exact .one (.inl ⟨id, rfl⟩) ⟨active, alive⟩ valid (by rw [dispatched, view]; rfl)
  · obtain ⟨after, eq, valid, dispatched⟩ := dispatch_spec good.valid active
    rw [if_neg stays, eq]
    refine .one (.inr ⟨that, rfl⟩) ⟨active, ?_⟩ valid dispatched
    by_cases idle : that = .idlethread core
    · exact .inl idle
    · exact .inr (show s.killFlag that = true by simpa [idle] using stays)

theorem exit_outcome (good : s.Good) (on : s.lifePointer core ≠ none) :
    Outcome (fun m => ∃ that, m = .leave core that) hangs s.view (Scheduler.exit core s) := by
  obtain ⟨that, active⟩ := Option.ne_none_iff_exists'.mp on
  obtain ⟨after, eq, valid, view⟩ := dispatch_spec (s := s.note (.exited that)) good.valid active
  simp only [Scheduler.exit, Dispatcher.active, active, eq]
  exact .one ⟨that, rfl⟩ active valid view

omit [LawfulThreadQueues cfg Q] in
theorem isActive_isSome (s : Kernel cfg Q) (that : Thread cfg) :
    (Dispatcher.isActive that s).isSome = s.view.running that := by
  rw [Bool.eq_iff_iff, Threads.running, decide_eq_true_iff]
  simp [Dispatcher.isActive, Kernel.view]

/-- `kill` always returns: the ready list is searched to its end. -/
theorem kill_spec (good : s.Good) (id : Fin cfg.threads) :
    ∃ after, Scheduler.kill (.app id) s = .ok after ∧ Valid after.queues ∧
      after.view = s.view.after (.kill id) := by
  obtain ⟨queues, removed, valid, readySame, waitingSame⟩ := readyRemove_spec good.valid (.app id)
  simp only [Scheduler.kill, setWaitingroom, Kernel.note, removed]
  by_cases member : Thread.app id ∈ (ready s.queues : List (Thread cfg))
  · simp only [member, if_true]
    refine ⟨_, rfl, valid, ?_⟩
    simp [Kernel.view, Threads.after, Threads.note, readySame, waitingSame, isActive_isSome]
    rfl
  · simp only [member, if_false]
    split
    all_goals
      refine ⟨_, rfl, valid, ?_⟩
      simp [Kernel.view, Threads.after, Threads.note, readySame, waitingSame, isActive_isSome]
      rfl

theorem kill_outcome (good : s.Good) (id : Fin cfg.threads) :
    Outcome (· = .kill id) hangs s.view (Scheduler.kill (.app id) s) := by
  obtain ⟨after, eq, valid, view⟩ := kill_spec good id
  rw [eq]
  exact .one rfl trivial valid view

/-- `block` on behalf of a running thread always returns. -/
theorem block_spec (good : s.Good) {id : Fin cfg.threads}
    (active : s.lifePointer core = some (.app id)) (w : Waitingroom cfg) :
    ∃ after, Scheduler.block core w s = .ok after ∧ Valid after.queues ∧
      after.view = s.view.after (.wait core w id) := by
  obtain ⟨valid, readySame, waitingSame⟩ := roomEnqueue_spec good.valid w (.app id)
    (good.placed.notReady_of_core active) (good.placed.notWaiting_of_core active)
  obtain ⟨after, eq, valid, view⟩ := dispatch_spec
    (s := setWaitingroom (.app id) (some w) (({ s with
      queues := roomEnqueue s.queues w (.app id) } : Kernel cfg Q).note (.blocked w (.app id))))
    valid active
  refine ⟨after, ?_, valid, ?_⟩
  · simp only [Scheduler.block, Dispatcher.active, active, eq]
  · rw [view]
    simp [Kernel.view, Threads.after, Threads.join, Threads.note, Kernel.note, setWaitingroom,
      readySame, waitingSame]

theorem block_outcome (good : s.Good) {id : Fin cfg.threads}
    (active : s.lifePointer core = some (.app id)) (w : Waitingroom cfg)
    (exhausted : ∀ sem, w = .semaphore sem → s.counter sem = 0) :
    Outcome (· = .wait core w id) hangs s.view (Scheduler.block core w s) := by
  obtain ⟨after, eq, valid, view⟩ := block_spec good active w
  rw [eq]
  exact .one rfl ⟨active, exhausted⟩ valid view

theorem p_outcome (good : s.Good) {id : Fin cfg.threads}
    (active : s.lifePointer core = some (.app id)) (sem : Fin cfg.semaphores) :
    Outcome (fun m => (∃ that, m = .pass sem that) ∨ ∃ id, m = .wait core (.semaphore sem) id) hangs
      s.view (Semaphore.p core sem s) := by
  simp only [Semaphore.p, Dispatcher.active, active]
  split
  case isTrue positive => exact .one (.inl ⟨.app id, rfl⟩) positive good.valid rfl
  case isFalse zero =>
    have exhausted : ∀ other, Waitingroom.semaphore sem = .semaphore other → s.counter other = 0 := by
      rintro other ⟨⟩
      exact Nat.eq_zero_of_not_pos zero
    exact (block_outcome good active _ exhausted).mono (fun m h => .inr ⟨id, h⟩) (fun h => h)

/-- Taking the first thread of a room, if there is one, and waking it. -/
theorem wakeFirst_spec (good : s.Good) (core : Fin cfg.cores) (w : Waitingroom cfg) :
    ∃ queues, (roomDequeue s.queues w).2 = queues ∧ Valid queues ∧
      match (roomDequeue s.queues w).1 with
      | none => waiting s.queues w = [] ∧ ({ s with queues := queues } : Kernel cfg Q).view = s.view
      | some that => (waiting s.queues w).head? = some that ∧ ((s.waitingroom that = none ∧
          Scheduler.wakeup core that { s with queues := queues } = .error .nullPointer) ∨
        s.waitingroom that = some w ∧ ∃ after, Valid after.queues ∧
          after.view = s.view.wake w that ∧
          Scheduler.wakeup core that { s with queues := queues } = .ok after) := by
  obtain ⟨queues, eq, valid, readySame, waitingSame⟩ := roomDequeue_spec good.valid w
  refine ⟨queues, by rw [eq], valid, ?_⟩
  rw [eq]
  cases nodes : (waiting s.queues w : List (Thread cfg)) with
  | nil =>
    refine ⟨rfl, ?_⟩
    rw [nodes] at waitingSame
    have same : waiting queues = waiting s.queues := by
      rw [waitingSame, List.tail_nil, ← nodes]; simp
    simp [Kernel.view, readySame, same]
  | cons that rest =>
    exact ⟨rfl, wakeup_spec good valid readySame (by simp [nodes]) waitingSame⟩

/-- `v` does one move, unless the first waiting thread names no waiting room. -/
theorem v_spec (good : s.Good) (core : Fin cfg.cores) (sem : Fin cfg.semaphores) :
    (∃ that, (waiting s.queues (.semaphore sem)).head? = some that ∧ s.waitingroom that = none ∧
      Semaphore.v core sem s = .error .nullPointer) ∨
    ∃ m after, Op.Makes core s (.v sem) m ∧ s.view.Allows m ∧ Valid after.queues ∧
      after.view = s.view.after m ∧ Semaphore.v core sem s = .ok after := by
  have noted : (s.note (.signalled sem)).Good :=
    ⟨good.valid, good.placed.note _⟩
  obtain ⟨queues, eq, valid, spec⟩ := wakeFirst_spec noted core (.semaphore sem)
  simp only [Semaphore.v]
  split
  case h_1 first _ found =>
    simp only [found] at eq spec
    subst eq
    obtain ⟨head, ⟨names, fails⟩ | ⟨names, after, validAfter, view, woken⟩⟩ := spec
    · exact .inl ⟨first, head, names, fails⟩
    · exact .inr ⟨.hand sem first, after, .inr ⟨first, head, rfl⟩, ⟨head, names⟩, validAfter, view, woken⟩
  case h_2 _ found =>
    simp only [found] at eq spec
    subst eq
    refine .inr ⟨.increment sem (s.counter sem), _, .inl rfl, ⟨spec.1, rfl⟩, valid, ?_, rfl⟩
    have view := spec.2
    simp only [Kernel.view, Kernel.note, Threads.mk.injEq] at view
    simp [Kernel.view, Threads.after, Threads.note, Kernel.note, view.1, view.2.1]

theorem v_outcome (good : s.Good) (sem : Fin cfg.semaphores) :
    Outcome (Op.Makes core s (.v sem)) hangs s.view (Semaphore.v core sem s) := by
  obtain ⟨that, head, names, eq⟩ | ⟨m, after, makes, allowed, valid, view, eq⟩ := v_spec good core sem
  · rw [eq]
    exact ⟨[], s.view, by simp, rfl, .semaphore sem, that, head, names⟩
  · rw [eq]
    exact .one makes allowed valid view

/-- Waking threads moves no core and puts nobody into a room. -/
theorem moves_rings {v v' : Threads cfg} {moves : List (Move cfg)}
    (rings : ∀ m ∈ moves, ∃ w that, m = .ring w that)
    (run : Run.exec Threads.move v moves = some v') :
    v'.life = v.life ∧ ∀ w that, that ∈ v'.waiting w → that ∈ v.waiting w := by
  induction moves generalizing v with
  | nil => cases run; exact ⟨rfl, fun _ _ h => h⟩
  | cons m rest ih =>
    obtain ⟨next, first, later⟩ := Run.exec_cons_eq_some.mp run
    obtain ⟨w, that, rfl⟩ := rings m List.mem_cons_self
    obtain ⟨_, rfl⟩ := Threads.move_eq_some.mp first
    obtain ⟨life, sub⟩ := ih (fun m h => rings m (List.mem_cons_of_mem _ h)) later
    refine ⟨life, fun other x member => ?_⟩
    have before := sub other x member
    by_cases same : other = w
    · subst same
      exact List.mem_of_mem_tail (by simpa [Threads.after] using before)
    · simpa [Threads.after, same] using before

theorem wakeAll_outcome (good : s.Good) (core : Fin cfg.cores) (w : Waitingroom cfg) {fuel : Nat}
    (enough : (waiting s.queues w).length < fuel) :
    Outcome (fun m => ∃ that ∈ waiting s.queues w, m = .ring w that) False s.view
      (w.wakeAll core fuel s) := by
  induction fuel generalizing s with
  | zero => simp at enough
  | succ fuel ih =>
    obtain ⟨queues, eq, valid, spec⟩ := wakeFirst_spec good core w
    rw [Waitingroom.wakeAll]
    split
    case h_1 _ found =>
      simp only [found] at eq spec
      subst eq
      exact .none valid spec.2
    case h_2 customer _ found =>
      simp only [found] at eq spec
      subst eq
      obtain ⟨head, ⟨names, fails⟩ | ⟨names, after, validAfter, view, woken⟩⟩ := spec
      · rw [fails]
        exact ⟨[], s.view, by simp, rfl, w, customer, head, names⟩
      · have allowed : s.view.Allows (.ring w customer) := ⟨head, names⟩
        have member := List.mem_of_mem_head? head
        have woke : Outcome (fun m => ∃ that ∈ waiting s.queues w, m = .ring w that) False s.view
            (.ok after) := .one ⟨customer, member, rfl⟩ allowed validAfter view
        refine Outcome.bind good.placed (woken ▸ woke) ?_
        intro middle eq goodMiddle
        obtain rfl : after = middle := Except.ok.inj (woken.symm.trans eq)
        have tail : waiting after.queues w = (waiting s.queues w).tail := by
          have := congrFun (congrArg Threads.waiting view) w
          simpa [Kernel.view] using this
        have := List.length_pos_of_mem member
        refine (ih goodMiddle ?_).mono ?_ fun h => h
        · rw [tail, List.length_tail]; omega
        · rintro m ⟨that, later, rfl⟩
          exact ⟨that, List.mem_of_mem_tail (tail ▸ later), rfl⟩

theorem length_waiting_lt_fuel (good : s.Good) (w : Waitingroom cfg) :
    (waiting s.queues w).length < Pointers.fuel cfg := by
  have := (good.placed.nodup_waiting w).length_le_card
  rw [card_thread] at this
  exact Nat.lt_succ_of_le this

theorem destroy_outcome (core : Fin cfg.cores) (good : s.Good) (w : Waitingroom cfg) :
    Outcome (fun m => ∃ that ∈ waiting s.queues w, m = .ring w that) False s.view
      (w.destroy core s) :=
  wakeAll_outcome good core w (length_waiting_lt_fuel good w)

theorem sleep_outcome (good : s.Good) {id : Fin cfg.threads}
    (active : s.lifePointer core = some (.app id)) (bell : Fin cfg.bells) (ms : Nat)
    (fresh : waiting s.queues (.bell bell) = []) :
    Outcome (fun m => ∃ id, m = .wait core (.bell bell) id) True s.view
      (Bell.sleep core bell ms s) := by
  rw [Bell.sleep]
  split
  case isTrue => exact .none good.valid rfl
  case isFalse =>
    split
    case h_1 => trivial
    case h_2 bellringer _ =>
      obtain ⟨valid, readySame, waitingSame⟩ := roomNew_spec good.valid (.bell bell)
      have view : ({ s with
          queues := roomNew s.queues (.bell bell)
          bellringer := bellringer } : Kernel cfg Q).view = s.view := by
        have same : waiting (roomNew s.queues (.bell bell)) = waiting s.queues := by
          rw [waitingSame, ← fresh]; simp
        simp [Kernel.view, readySame, same]
      have good' : ({ s with
          queues := roomNew s.queues (.bell bell)
          bellringer := bellringer } : Kernel cfg Q).Good := ⟨valid, view ▸ good.placed⟩
      have block : Outcome (· = .wait core (.bell bell) id) True _ _ :=
        block_outcome good' active (.bell bell) nofun
      rw [view] at block
      exact block.mono (fun m h => ⟨id, h⟩) fun _ => trivial

theorem rings_outcome (good : s.Good) (core : Fin cfg.cores) (rung : List (Fin cfg.bells)) :
    Outcome (fun m => ∃ bell ∈ rung, ∃ that ∈ waiting s.queues (.bell bell),
      m = .ring (.bell bell) that) False s.view
      (rung.foldlM (fun s bell => Bell.ring core bell s) s) := by
  induction rung generalizing s with
  | nil => exact .none good.valid rfl
  | cons bell rest ih =>
    rw [List.foldlM_cons]
    have first := destroy_outcome core good (.bell bell)
    refine Outcome.bind good.placed (first.mono ?_ id) ?_
    · rintro m ⟨that, member, rfl⟩
      exact ⟨bell, List.mem_cons_self, that, member, rfl⟩
    · intro middle rang goodMiddle
      rw [show Waitingroom.destroy core (.bell bell) s = .ok middle from rang] at first
      obtain ⟨_, moves, rings, run⟩ := first
      have sub := (moves_rings (fun m member => by
        obtain ⟨that, _, rfl⟩ := rings m member
        exact ⟨_, _, rfl⟩) run).2
      refine (ih goodMiddle).mono ?_ id
      rintro m ⟨other, member, that, waits, rfl⟩
      exact ⟨other, List.mem_cons_of_mem _ member, that, sub _ _ waits, rfl⟩

theorem check_outcome (good : s.Good) (core : Fin cfg.cores) :
    Outcome (Op.Makes core s .check) True s.view (Bellringer.checkAll core s) := by
  rw [Bellringer.checkAll]
  split
  case h_1 => trivial
  case h_2 bellringer rung found =>
    have rings := rings_outcome (s := { s with bellringer := bellringer }) ⟨good.valid, good.placed⟩
      core rung
    refine rings.mono ?_ False.elim
    rintro m ⟨bell, member, that, waits, rfl⟩
    exact ⟨bell, by simpa [Kernel.Due, found] using member, that, waits, rfl⟩

theorem watch_outcome (good : s.Good) (on : s.lifePointer core ≠ none) :
    Outcome (Op.Makes core s .watch) True s.view (Watch.epilogue core s) := by
  have checked : Outcome (fun m => core.val = 0 ∧ Op.Makes core s .check m) True s.view
      (if core.val = 0 then Bellringer.checkAll core s else .ok s) := by
    split
    case isTrue first => exact (check_outcome good core).mono (fun m h => ⟨first, h⟩) id
    case isFalse => exact .none good.valid rfl
  have first : Outcome (Op.Makes core s .watch) True s.view _ := checked.mono (fun m h => .inl h) id
  have split : Watch.epilogue core s =
      (if core.val = 0 then Bellringer.checkAll core s else .ok s) >>= Scheduler.resume core := by
    rw [Watch.epilogue]; split <;> rfl
  rw [split]
  refine Outcome.bind good.placed first ?_
  intro middle eq goodMiddle
  rw [eq] at checked
  obtain ⟨_, moves, rings, run⟩ := checked
  have life : middle.lifePointer = s.lifePointer := (moves_rings (fun m member => by
    obtain ⟨_, bell, _, that, _, rfl⟩ := rings m member
    exact ⟨_, _, rfl⟩) run).1
  exact (resume_outcome goodMiddle (by rwa [life])).mono (fun m h => .inr h) id

theorem assassin_outcome (good : s.Good) (on : s.lifePointer core ≠ none) :
    Outcome (Op.Makes core s .assassin) hangs s.view (Assassin.epilogue core s) := by
  obtain ⟨current, active⟩ := Option.ne_none_iff_exists'.mp on
  simp only [Assassin.epilogue, Dispatcher.active, active]
  split
  case isTrue => exact resume_outcome ⟨good.valid, good.placed⟩ on
  case isFalse => exact .none good.valid rfl

theorem exec_outcome (good : s.Good) (op : Op cfg) (granted : op.Granted core s) :
    Outcome (op.Makes core s) op.Hangs s.view (op.exec core s) := by
  cases op with
  | ready that =>
    obtain ⟨⟨id, rfl⟩, absent⟩ := granted
    exact (ready_outcome good absent).mono (fun m h => ⟨id, rfl, h⟩) (fun h => h)
  | schedule => exact schedule_outcome good granted
  | resume => exact resume_outcome good granted
  | exit => exact exit_outcome good granted
  | kill that =>
    obtain ⟨id, rfl⟩ := granted
    exact (kill_outcome good id).mono (fun m h => ⟨id, rfl, h⟩) (fun h => h)
  | p sem =>
    obtain ⟨id, active⟩ := granted
    exact p_outcome good active sem
  | v sem => exact v_outcome good sem
  | sleep bell ms =>
    obtain ⟨⟨id, active⟩, fresh⟩ := granted
    exact sleep_outcome good active bell ms fresh
  | ring bell => exact destroy_outcome core good (.bell bell)
  | check => exact check_outcome good core
  | destroy w => exact destroy_outcome core good w
  | watch => exact watch_outcome good granted
  | assassin => exact assassin_outcome good granted

end Operations

section Runs

variable {s after : Kernel cfg Q} {core : Fin cfg.cores} {op : Op cfg}

theorem step_moves (good : s.Good) (step : s.step (core, op) = some after) :
    after.Good ∧ ∃ moves, (∀ m ∈ moves, op.Makes core s m) ∧
      Run.exec Threads.move s.view moves = some after.view := by
  obtain ⟨granted, eq⟩ := Kernel.step_eq_some.mp step
  have outcome := exec_outcome good op granted
  rw [eq] at outcome
  obtain ⟨valid, moves, made, run⟩ := outcome
  exact ⟨⟨valid, moves_placed run good.placed⟩, moves, made, run⟩

/-- What every move of a granted operation preserves holds after it. -/
theorem step_invariant (property : Threads cfg → Prop) (good : s.Good)
    (preserved : ∀ v m, v.Placed → property v → op.Makes core s m → v.Allows m →
      property (v.after m))
    (step : s.step (core, op) = some after) (start : property s.view) : property after.view := by
  obtain ⟨_, moves, made, run⟩ := step_moves good step
  refine (Run.invariant_along (fun v => v.Placed ∧ property v) ?_ run
    (Run.along_of_forall s.view made) ⟨good.placed, start⟩).2
  rintro v m next ⟨placed, here⟩ makes eq
  obtain ⟨allowed, rfl⟩ := Threads.move_eq_some.mp eq
  exact ⟨placed.after allowed, preserved v m placed here makes allowed⟩

/-- And after every run whose calls meet a condition. -/
theorem run_invariant (property : Threads cfg → Prop)
    (cond : Kernel cfg Q → Fin cfg.cores × Op cfg → Prop)
    (preserved : ∀ (s : Kernel cfg Q) core op v m, cond s (core, op) → v.Placed → property v →
      op.Makes core s m → v.Allows m → property (v.after m))
    {final : Kernel cfg Q} {calls : List (Fin cfg.cores × Op cfg)} (good : s.Good)
    (start : property s.view) (along : Run.Along Kernel.step cond s calls)
    (run : Run.exec Kernel.step s calls = some final) : final.Good ∧ property final.view := by
  refine Run.invariant_along (fun s => s.Good ∧ property s.view) ?_ run along ⟨good, start⟩
  rintro s ⟨core, op⟩ next ⟨good, here⟩ met step
  refine ⟨(step_moves good step).1, step_invariant property good ?_ step here⟩
  intro v m
  exact preserved s core op v m met

end Runs

theorem good_boot (counter : Fin cfg.semaphores → Nat) :
    (Kernel.boot (.new : Pointers cfg) counter).Good := by
  obtain ⟨valid, lists⟩ := Pointers.valid_new cfg
  have ready (that : Thread cfg) : that ∉ ready (.new : Pointers cfg) := by
    rw [show ready (.new : Pointers cfg) = _ from congrFun lists none]; simp
  have waiting (that : Thread cfg) (w : Waitingroom cfg) : that ∉ waiting (.new : Pointers cfg) w := by
    rw [show waiting (.new : Pointers cfg) w = _ from congrFun lists (some w)]; simp
  refine ⟨valid, ⟨fun _ => ready _, fun _ w => waiting _ w, by simp [Kernel.view, Kernel.boot],
    by simp [Kernel.view, Kernel.boot]⟩, fun id => ?_⟩
  have absent : (Kernel.boot (.new : Pointers cfg) counter).view.Absent (.app id) :=
    ⟨ready _, waiting _, by simp [Kernel.view, Kernel.boot]⟩
  rw [Threads.weight_absent absent]
  omega

end MPStuBS
