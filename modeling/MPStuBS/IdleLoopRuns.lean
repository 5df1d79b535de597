import MPStuBS.IdleLoop

/-! Which kernel operations announce new work to the cores that sleep. -/
namespace MPStuBS

variable {cfg : Config} {Q : Type} [ThreadQueues cfg Q]

open ThreadQueues

/-- No wakeup interrupt is lost, and work appears in an empty list only together with
one for every other core. -/
structure Announces (core : Fin cfg.cores) (s after : Kernel cfg Q) : Prop where
  kept : ∀ other, s.wakeup other = true → after.wakeup other = true
  sent : ready s.queues = [] → ready after.queues = [] ∨
    ∀ other, other ≠ core → after.wakeup other = true

section Announces

variable {core : Fin cfg.cores} {s middle after : Kernel cfg Q}

theorem Announces.of_same (pending : after.wakeup = s.wakeup)
    (list : ready s.queues = [] → ready after.queues = []) : Announces core s after :=
  ⟨fun other h => by rwa [pending], fun idle => .inl (list idle)⟩

theorem Announces.trans (first : Announces core s middle) (second : Announces core middle after) :
    Announces core s after := by
  refine ⟨fun other h => second.kept other (first.kept other h), fun idle => ?_⟩
  obtain still | all := first.sent idle
  · exact second.sent still
  · exact .inr fun other ne => second.kept other (all other ne)

theorem wakeup_announces {that : Thread cfg} (eq : Scheduler.wakeup core that s = .ok after) :
    (∀ other, s.wakeup other = true → after.wakeup other = true) ∧
      ∀ other, other ≠ core → after.wakeup other = true := by
  unfold Scheduler.wakeup at eq
  cases names : s.waitingroom that with
  | none => simp [names] at eq
  | some w =>
    simp only [names, Waitingroom.remove] at eq
    cases removed : roomRemove (setWaitingroom that none s).queues w that with
    | none => simp [removed, bind, Except.bind] at eq
    | some result =>
      simp only [removed, bind, Except.bind, Except.ok.injEq] at eq
      subst eq
      constructor
      · intro other pending
        by_cases same : other = core
        · simpa [same, Scheduler.append, Kernel.note, setWaitingroom] using pending
        · simp [same]
      · intro other ne
        simp [ne]

theorem wakeAll_kept {w : Waitingroom cfg} {fuel : Nat} (eq : w.wakeAll core fuel s = .ok after) :
    ∀ other, s.wakeup other = true → after.wakeup other = true := by
  induction fuel generalizing s with
  | zero => cases eq
  | succ fuel ih =>
    rw [Waitingroom.wakeAll] at eq
    split at eq
    case h_1 => cases eq; exact fun _ h => h
    case h_2 customer queues _ =>
      cases woken : Scheduler.wakeup core customer { s with queues := queues } with
      | error => simp [woken, bind, Except.bind] at eq
      | ok next =>
        simp only [woken, bind, Except.bind] at eq
        exact fun other h => ih eq other ((wakeup_announces woken).1 other h)

theorem takeNext_wakeup (s : Kernel cfg Q) : (Scheduler.takeNext core s).2.wakeup = s.wakeup := by
  unfold Scheduler.takeNext
  split <;> rfl

omit [ThreadQueues cfg Q] in
theorem dispatch_wakeup {next : Thread cfg} (eq : Dispatcher.dispatch core next s = .ok after) :
    after.wakeup = s.wakeup := by
  unfold Dispatcher.dispatch at eq
  split at eq
  · cases eq
  · cases eq; rfl

theorem switch_wakeup (eq : Dispatcher.dispatch core (Scheduler.takeNext core s).1
    (Scheduler.takeNext core s).2 = .ok after) : after.wakeup = s.wakeup :=
  (dispatch_wakeup eq).trans (takeNext_wakeup s)

theorem resume_wakeup (eq : Scheduler.resume core s = .ok after) : after.wakeup = s.wakeup := by
  unfold Scheduler.resume at eq
  split at eq
  · cases eq
  · rw [switch_wakeup eq]
    split <;> rfl

theorem exit_wakeup (eq : Scheduler.exit core s = .ok after) : after.wakeup = s.wakeup := by
  unfold Scheduler.exit at eq
  split at eq
  · cases eq
  · exact (switch_wakeup eq).trans rfl

theorem block_wakeup {w : Waitingroom cfg} (eq : Scheduler.block core w s = .ok after) :
    after.wakeup = s.wakeup := by
  unfold Scheduler.block at eq
  split at eq
  · cases eq
  · exact (switch_wakeup eq).trans rfl

theorem kill_wakeup {that : Thread cfg} (eq : Scheduler.kill that s = .ok after) :
    after.wakeup = s.wakeup := by
  unfold Scheduler.kill at eq
  simp only at eq
  split at eq
  · cases eq
  · cases eq; rfl
  · split at eq <;> (cases eq; rfl)

end Announces

/-- A move that puts no thread that was not running into the ready list. -/
def Move.Quiet : Move cfg → Prop
  | .arrive _ | .hand .. | .ring .. => False
  | .start _ | .yield .. | .abandon .. | .leave .. | .wait .. | .pass .. | .increment .. | .kill _ =>
    True

/-- Such moves never fill an empty list: what a core appends it takes out again. -/
theorem quiet_moves {v v' : Threads cfg} {moves : List (Move cfg)} (quiet : ∀ m ∈ moves, m.Quiet)
    (run : Run.exec Threads.move v moves = some v') (idle : v.ready = []) : v'.ready = [] := by
  refine Run.invariant_along (fun v => v.ready = []) ?_ run (Run.along_of_forall v quiet) idle
  intro v m next idle quiet eq
  obtain ⟨_, rfl⟩ := Threads.move_eq_some.mp eq
  cases m with
  | arrive | hand | ring => exact quiet.elim
  | start | yield | abandon | leave | wait | pass | increment | kill =>
    simp [Threads.after, idle]

variable [LawfulThreadQueues cfg Q]

open LawfulThreadQueues

section Operations

variable {core : Fin cfg.cores} {s after : Kernel cfg Q}

theorem Outcome.quiet {makes : Move cfg → Prop} {hangs : Prop}
    (outcome : Outcome makes hangs s.view (.ok after)) (quiet : ∀ m, makes m → m.Quiet)
    (idle : ready s.queues = []) : ready after.queues = [] := by
  obtain ⟨_, moves, made, run⟩ := outcome
  exact quiet_moves (fun m member => quiet m (made m member)) run idle

theorem resume_announces (good : s.Good) (on : s.lifePointer core ≠ none)
    (eq : Scheduler.resume core s = .ok after) : Announces core s after := by
  refine .of_same (resume_wakeup eq) ?_
  have outcome : Outcome _ True s.view (Scheduler.resume core s) := resume_outcome good on
  rw [eq] at outcome
  refine outcome.quiet ?_
  rintro m (⟨id, rfl⟩ | ⟨that, rfl⟩) <;> trivial

theorem wakeAll_announces (good : s.Good) {w : Waitingroom cfg} {fuel : Nat}
    (eq : w.wakeAll core fuel s = .ok after) : Announces core s after := by
  refine ⟨wakeAll_kept eq, fun idle => ?_⟩
  cases fuel with
  | zero => cases eq
  | succ fuel =>
    obtain ⟨queues, taken, _, readySame, _⟩ := roomDequeue_spec good.valid w
    rw [Waitingroom.wakeAll, taken] at eq
    cases first : (waiting s.queues w).head? with
    | none =>
      simp only [first] at eq
      cases eq
      exact .inl (readySame.trans idle)
    | some customer =>
      simp only [first] at eq
      cases woken : Scheduler.wakeup core customer { s with queues := queues } with
      | error => simp [woken, bind, Except.bind] at eq
      | ok next =>
        simp only [woken, bind, Except.bind] at eq
        exact .inr fun other ne => wakeAll_kept eq other ((wakeup_announces woken).2 other ne)

theorem rings_announces (good : s.Good) (rung : List (Fin cfg.bells))
    (eq : rung.foldlM (fun s bell => Bell.ring core bell s) s = .ok after) :
    Announces core s after := by
  induction rung generalizing s with
  | nil => cases eq; exact .of_same rfl id
  | cons bell rest ih =>
    rw [List.foldlM_cons] at eq
    have outcome := destroy_outcome core good (.bell bell)
    cases rang : Bell.ring core bell s with
    | error => simp [rang, bind, Except.bind] at eq
    | ok next =>
      simp only [rang, bind, Except.bind] at eq
      rw [show Waitingroom.destroy core (.bell bell) s = .ok next from rang] at outcome
      obtain ⟨valid, moves, _, run⟩ := outcome
      exact (wakeAll_announces good rang).trans (ih ⟨valid, moves_placed run good.placed⟩ eq)

theorem check_announces (good : s.Good) (eq : Bellringer.checkAll core s = .ok after) :
    Announces core s after := by
  unfold Bellringer.checkAll at eq
  split at eq
  case h_1 => cases eq
  case h_2 bellringer rung _ =>
    have rings := rings_announces (s := { s with bellringer := bellringer }) ⟨good.valid, good.placed⟩
      rung eq
    exact ⟨rings.kept, rings.sent⟩

/-- Every operation but `ready` announces what it puts into the empty list. -/
theorem exec_announces (good : s.Good) {op : Op cfg} (granted : op.Granted core s)
    (notReady : ∀ that, op ≠ .ready that) (eq : op.exec core s = .ok after) :
    Announces core s after := by
  have outcome := exec_outcome good op granted
  rw [eq] at outcome
  cases op with
  | ready that => exact absurd rfl (notReady that)
  | schedule =>
    refine .of_same ?_ (outcome.quiet ?_)
    · cases eq; exact takeNext_wakeup s
    · rintro m rfl; trivial
  | resume => exact resume_announces good granted eq
  | exit =>
    refine .of_same (exit_wakeup eq) (outcome.quiet ?_)
    rintro m ⟨that, rfl⟩; trivial
  | kill that =>
    refine .of_same (kill_wakeup eq) (outcome.quiet ?_)
    rintro m ⟨id, _, rfl⟩; trivial
  | p sem =>
    refine .of_same ?_ (outcome.quiet ?_)
    · simp only [Op.exec, Semaphore.p] at eq
      split at eq
      · cases eq
      · split at eq
        · cases eq; rfl
        · exact block_wakeup eq
    · rintro m (⟨that, rfl⟩ | ⟨id, rfl⟩) <;> trivial
  | v sem =>
    obtain ⟨queues, taken, _, readySame, _⟩ := roomDequeue_spec good.valid (.semaphore sem)
    simp only [Op.exec, Semaphore.v, Kernel.note, taken] at eq
    split at eq
    · obtain ⟨kept, sent⟩ := wakeup_announces eq
      exact ⟨kept, fun _ => .inr sent⟩
    · next found =>
      obtain rfl : queues = _ := congrArg Prod.snd found
      cases eq
      exact .of_same rfl fun idle => readySame.trans idle
  | sleep bell ms =>
    refine .of_same ?_ (outcome.quiet ?_)
    · simp only [Op.exec, Bell.sleep] at eq
      split at eq
      · cases eq; rfl
      · split at eq
        · cases eq
        · exact (block_wakeup eq).trans rfl
    · rintro m ⟨id, rfl⟩; trivial
  | ring bell => exact wakeAll_announces good eq
  | check => exact check_announces good eq
  | destroy w => exact wakeAll_announces good eq
  | watch =>
    simp only [Op.exec, Watch.epilogue] at eq
    split at eq
    · have checked := check_outcome good core
      cases rang : Bellringer.checkAll core s with
      | error => simp [rang, bind, Except.bind] at eq
      | ok next =>
        simp only [rang, bind, Except.bind] at eq checked
        obtain ⟨valid, moves, rings, run⟩ := checked
        have life : next.lifePointer = s.lifePointer := (moves_rings (fun m member => by
          obtain ⟨bell, _, that, _, rfl⟩ := rings m member
          exact ⟨_, _, rfl⟩) run).1
        exact (check_announces good rang).trans
          (resume_announces ⟨valid, moves_placed run good.placed⟩ (by rw [life]; exact granted) eq)
    · exact resume_announces good granted eq
  | assassin =>
    simp only [Op.exec, Assassin.epilogue] at eq
    split at eq
    · cases eq
    · split at eq
      · obtain ⟨kept, sent⟩ := resume_announces (s := { s with
          assassin := Function.update s.assassin core false }) ⟨good.valid, good.placed⟩ granted eq
        exact ⟨kept, sent⟩
      · cases eq
        exact .of_same rfl id

end Operations

namespace System

variable {s next : System cfg Q}

/-- What a core's own call leaves behind: it is no longer waiting in the idle loop. -/
theorem Alert.call (good : s.kernel.Good) (alert : s.Alert) {core : Fin cfg.cores} {op : Op cfg}
    (announced : s.Announced (.call core op)) {kernel : Kernel cfg Q} {position : Idling}
    (awake : position.committed = false) (step : s.kernel.step (core, op) = some kernel) :
    ({ s with kernel := kernel }.goto core position).Alert := by
  obtain ⟨granted, eq⟩ := Kernel.step_eq_some.mp step
  intro other waits work
  have ne : other ≠ core := by
    rintro rfl
    simp [goto, awake] at waits
  replace waits : (s.idling other).committed = true := by simpa [goto, ne] using waits
  change ready kernel.queues ≠ [] at work
  show kernel.wakeup other = true
  by_cases readies : ∃ that, op = .ready that
  · obtain ⟨that, rfl⟩ := readies
    cases eq
    exact announced other ne waits
  · have announces := exec_announces good granted (fun that same => readies ⟨that, same⟩) eq
    by_cases idle : ready s.kernel.queues = []
    · obtain still | all := announces.sent idle
      · exact absurd still work
      · exact all other ne
    · exact announces.kept other (alert other waits idle)

omit [LawfulThreadQueues cfg Q] in
theorem Alert.goto (alert : s.Alert) (core : Fin cfg.cores) {position : Idling}
    (safe : position.committed = true → ready s.kernel.queues ≠ [] →
      s.kernel.wakeup core = true) : (s.goto core position).Alert := by
  intro other waits work
  by_cases same : other = core
  · subst same
    exact safe (by simpa [System.goto] using waits) work
  · exact alert other (by simpa [System.goto, same] using waits) work

theorem good_step (good : s.kernel.Good) {a : CoreStep cfg} (step : s.step a = some next) :
    next.kernel.Good := by
  cases a with
  | disable | isEmpty | idle | enable | interrupt =>
    obtain ⟨_, ⟨⟩⟩ := Option.ite_none_right_eq_some.mp step
    exact good
  | wakeup =>
    obtain ⟨_, ⟨⟩⟩ := Option.ite_none_right_eq_some.mp step
    exact ⟨good.valid, good.placed⟩
  | resume | call =>
    obtain ⟨_, eq⟩ := Option.ite_none_right_eq_some.mp step
    obtain ⟨kernel, called, rfl⟩ := Option.map_eq_some_iff.mp eq
    exact (step_moves good called).1

theorem alert_step (good : s.kernel.Good) (alert : s.Alert) {a : CoreStep cfg}
    (announced : s.Announced a) (step : s.step a = some next) : next.Alert := by
  cases a with
  | disable core =>
    obtain ⟨_, ⟨⟩⟩ := Option.ite_none_right_eq_some.mp step
    exact alert.goto core (by intro h; cases h)
  | isEmpty core =>
    obtain ⟨_, ⟨⟩⟩ := Option.ite_none_right_eq_some.mp step
    refine alert.goto core fun committed work => ?_
    have occupied : Scheduler.isEmpty s.kernel = false := by
      simpa [Scheduler.isEmpty] using work
    simp [occupied, Idling.committed] at committed
  | idle core =>
    obtain ⟨found, ⟨⟩⟩ := Option.ite_none_right_eq_some.mp step
    exact alert.goto core fun _ => alert core (by rw [found]; rfl)
  | enable core =>
    obtain ⟨_, ⟨⟩⟩ := Option.ite_none_right_eq_some.mp step
    exact alert.goto core (by intro h; cases h)
  | resume core =>
    obtain ⟨_, eq⟩ := Option.ite_none_right_eq_some.mp step
    obtain ⟨kernel, called, rfl⟩ := Option.map_eq_some_iff.mp eq
    exact Alert.call good alert (show s.Announced (.call core .resume) from trivial) rfl called
  | wakeup core =>
    obtain ⟨⟨_, unmasked⟩, ⟨⟩⟩ := Option.ite_none_right_eq_some.mp step
    intro other waits work
    have ne : other ≠ core := by
      rintro rfl
      simp [System.goto, Idling.committed_interrupted unmasked] at waits
    have pending := alert other (by simpa [System.goto, ne] using waits) work
    simpa [System.goto, ne] using pending
  | interrupt core =>
    obtain ⟨unmasked, ⟨⟩⟩ := Option.ite_none_right_eq_some.mp step
    refine alert.goto core fun committed => ?_
    rw [Idling.committed_interrupted unmasked] at committed
    cases committed
  | call core op =>
    obtain ⟨unmasked, eq⟩ := Option.ite_none_right_eq_some.mp step
    obtain ⟨kernel, called, rfl⟩ := Option.map_eq_some_iff.mp eq
    exact alert.call good announced (Idling.committed_interrupted unmasked) called

theorem alert_run {final : System cfg Q} {actions : List (CoreStep cfg)} (good : s.kernel.Good)
    (alert : s.Alert) (run : Run.exec step s actions = some final)
    (along : Run.Along step Announced s actions) : final.kernel.Good ∧ final.Alert := by
  refine Run.invariant_along (fun s : System cfg Q => s.kernel.Good ∧ s.Alert) ?_ run along
    ⟨good, alert⟩
  rintro s a next ⟨good, alert⟩ announced step
  exact ⟨good_step good step, alert_step good alert announced step⟩

omit [ThreadQueues cfg Q] [LawfulThreadQueues cfg Q] in
theorem not_announced {a : CoreStep cfg} : ¬ s.Announced a ↔ ∃ core other that,
    a = .call core (.ready that) ∧ other ≠ core ∧ (s.idling other).committed = true ∧
      s.kernel.wakeup other = false := by
  constructor
  · intro unannounced
    unfold Announced at unannounced
    split at unannounced
    · next core that =>
      push Not at unannounced
      obtain ⟨other, ne, waits, silent⟩ := unannounced
      exact ⟨core, other, that, rfl, ne, waits, by simpa using silent⟩
    · exact absurd trivial unannounced
  · rintro ⟨core, other, that, rfl, ne, waits, silent⟩ announced
    have pending := announced other ne waits
    rw [silent] at pending
    cases pending

/-- A thread readied behind the back of a core that has found the list empty: the core
sleeps now, or after its next step. -/
theorem asleep_of_ready {core other : Fin cfg.cores} {that : Thread cfg} (good : s.kernel.Good)
    (ne : other ≠ core) (waits : (s.idling other).committed = true)
    (silent : s.kernel.wakeup other = false) (step : s.step (.call core (.ready that)) = some next) :
    ∃ (idles : List (Fin cfg.cores)) (final : System cfg Q), Run.exec System.step next (idles.map .idle) = some final ∧ ¬ final.Awake := by
  obtain ⟨unmasked, eq⟩ := Option.ite_none_right_eq_some.mp step
  obtain ⟨kernel, called, rfl⟩ := Option.map_eq_some_iff.mp eq
  obtain ⟨⟨⟨id, rfl⟩, absent⟩, ready'⟩ := Kernel.step_eq_some.mp called
  have work : ready kernel.queues ≠ [] := by
    obtain ⟨_, view⟩ := append_spec (s := s.kernel.note (.readied (.app id))) good.valid absent.1
      absent.2.1
    obtain rfl := Except.ok.inj ready'
    have list := congrArg Threads.ready view
    rw [show ready (Scheduler.ready (.app id) s.kernel).queues = _ from list]
    simp
  have pending : kernel.wakeup other = false := by
    obtain rfl := Except.ok.inj ready'
    exact silent
  cases position : s.idling other with
  | halted =>
    refine ⟨[], _, rfl, fun awake => ?_⟩
    have woken : kernel.wakeup other = true :=
      awake other (by simp [System.goto, ne, position]) work
    rw [pending] at woken
    cases woken
  | empty =>
    refine ⟨[other], ({ s with kernel := kernel }.goto core (s.idling core).interrupted).goto other
      .halted, ?_, fun awake => ?_⟩
    · rw [List.map_cons, Run.exec_cons, System.step, if_pos (by simp [System.goto, ne, position])]
      rfl
    · have woken : kernel.wakeup other = true := awake other (by simp [System.goto]) work
      rw [pending] at woken
      cases woken
  | looping | disabled | occupied | enabled => rw [position] at waits; cases waits

end System

/-- In every state of a run, and in every one it leads to when cores go to sleep, no core
sleeps while work is ready without a wakeup interrupt on its way, if and only if a
thread is only ever readied when the other cores that have found the list empty have
one pending already. -/
theorem awake_iff_announced (cfg : Config) (counter : Fin cfg.semaphores → Nat)
    (actions : List (CoreStep cfg)) (final : System cfg (Pointers cfg))
    (run : Run.exec System.step (System.boot .new counter) actions = some final) :
    (∀ before rest (state : System cfg (Pointers cfg)), actions = before ++ rest →
      Run.exec System.step (System.boot .new counter) before = some state →
      ∀ (idles : List (Fin cfg.cores)) later, Run.exec System.step state (idles.map .idle) = some later → later.Awake) ↔
    Run.Along System.step System.Announced (System.boot (.new : Pointers cfg) counter) actions := by
  have goodBoot : Kernel.Good (.boot (.new : Pointers cfg) counter) := good_boot counter
  have alertBoot : (System.boot (.new : Pointers cfg) counter).Alert := by
    intro core waits
    cases waits
  constructor
  · intro holds
    rw [Run.along_iff]
    rintro before a rest middle rfl reached
    have goodMiddle : middle.kernel.Good :=
      Run.invariant (fun s : System cfg (Pointers cfg) => s.kernel.Good)
        (fun s a next good step => System.good_step good step) reached goodBoot
    obtain ⟨next, step, later⟩ : ∃ next, middle.step a = some next ∧
        Run.exec System.step next rest = some final := by
      obtain ⟨_, first, second⟩ := Run.exec_append_eq_some.mp run
      obtain rfl := Option.some.inj (reached.symm.trans first)
      exact Run.exec_cons_eq_some.mp second
    by_contra unannounced
    obtain ⟨core, other, that, rfl, ne, waits, silent⟩ := System.not_announced.mp unannounced
    obtain ⟨idles, asleep, slept, notAwake⟩ := System.asleep_of_ready goodMiddle ne waits silent step
    refine notAwake (holds (before ++ [.call core (.ready that)]) rest next (by simp) ?_ idles asleep
      slept)
    exact Run.exec_append_eq_some.mpr ⟨middle, reached, by rw [Run.exec_cons, step]; rfl⟩
  · rintro along before rest state rfl reached idles later slept
    have spared := (Run.along_append.mp along).1
    have sleeps : Run.Along System.step System.Announced state (idles.map .idle) := by
      rw [Run.along_iff]
      intro first a last _ eq _
      obtain ⟨core, _, rfl⟩ := List.mem_map.mp (eq ▸ List.mem_append_right first List.mem_cons_self)
      trivial
    obtain ⟨good, alert⟩ := System.alert_run goodBoot alertBoot reached spared
    exact (System.alert_run good alert slept sleeps).2.awake

/-- The second core sleeps when the first one wakes a thread that waited. -/
theorem awake_iff_announced_signal :
    ∃ final : System ⟨2, 2, 1, 0⟩ (Pointers ⟨2, 2, 1, 0⟩),
      Run.exec System.step (System.boot .new fun _ => 0)
        [.call 0 (.ready (.app 0)), .call 0 (.ready (.app 1)), .call 0 .schedule, .call 0 (.p 0),
          .call 1 .schedule, .disable 1, .isEmpty 1, .idle 1, .call 0 (.v 0)] = some final ∧
      final.Awake := by
  have awake := (awake_iff_announced ⟨2, 2, 1, 0⟩ (fun _ => 0)
    [.call 0 (.ready (.app 0)), .call 0 (.ready (.app 1)), .call 0 .schedule, .call 0 (.p 0),
      .call 1 .schedule, .disable 1, .isEmpty 1, .idle 1, .call 0 (.v 0)] _ rfl).mpr (by decide)
  exact ⟨_, rfl, awake _ [] _ (List.append_nil _).symm rfl [] _ rfl⟩

/-- The second core sleeps when the first one readies another thread. -/
theorem sleeps_through_ready :
    ∃ final : System ⟨2, 2, 0, 0⟩ (Pointers ⟨2, 2, 0, 0⟩),
      Run.exec System.step (System.boot .new fun _ => 0)
        [.call 0 (.ready (.app 0)), .call 0 .schedule, .call 1 .schedule, .disable 1, .isEmpty 1,
          .idle 1, .call 0 (.ready (.app 1))] = some final ∧
      final.idling 1 = .halted ∧ ready final.kernel.queues = [.app 1] ∧
      final.kernel.wakeup 1 = false ∧ ¬ final.Awake :=
  ⟨_, rfl, rfl, rfl, rfl, by decide⟩

end MPStuBS
