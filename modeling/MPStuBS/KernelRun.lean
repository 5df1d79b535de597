import MPStuBS.Kernel
import MPStuBS.Run

/-! Runs of kernel operations issued by all cores in any order. `Granted` is what the
callers in the repository promise about a call. -/
namespace MPStuBS

variable {cfg : Config} {Q : Type} [ThreadQueues cfg Q]

open ThreadQueues

inductive Op (cfg : Config) where
  | ready (that : Thread cfg)
  | schedule
  | resume
  | exit
  | kill (that : Thread cfg)
  | p (id : Fin cfg.semaphores)
  | v (id : Fin cfg.semaphores)
  | sleep (bell : Fin cfg.bells) (ms : Nat)
  | ring (bell : Fin cfg.bells)
  | check
  | destroy (waitingroom : Waitingroom cfg)
  | watch
  | assassin
  deriving DecidableEq, Repr

def Op.exec (core : Fin cfg.cores) (s : Kernel cfg Q) : Op cfg → Except Fault (Kernel cfg Q)
  | .ready that => .ok (Scheduler.ready that s)
  | .schedule => .ok (Scheduler.schedule core s)
  | .resume => Scheduler.resume core s
  | .exit => Scheduler.exit core s
  | .kill that => Scheduler.kill that s
  | .p id => Semaphore.p core id s
  | .v id => Semaphore.v core id s
  | .sleep bell ms => Bell.sleep core bell ms s
  | .ring bell => Bell.ring core bell s
  | .check => Bellringer.checkAll core s
  | .destroy w => w.destroy core s
  | .watch => Watch.epilogue core s
  | .assassin => Assassin.epilogue core s

/-- Where a thread can be. -/
inductive Place (cfg : Config) where
  | ready
  | room (waitingroom : Waitingroom cfg)
  | core (id : Fin cfg.cores)
  deriving DecidableEq

def At (queues : Q) (life : Fin cfg.cores → Option (Thread cfg)) (that : Thread cfg) : Place cfg → Prop
  | .ready => that ∈ ready queues
  | .room w => that ∈ waiting queues w
  | .core c => life c = some that

def Kernel.At (s : Kernel cfg Q) (that : Thread cfg) (place : Place cfg) : Prop :=
  MPStuBS.At s.queues s.lifePointer that place

instance (s : Kernel cfg Q) (that : Thread cfg) : ∀ place, Decidable (s.At that place)
  | .ready => inferInstanceAs (Decidable (that ∈ ready s.queues))
  | .room w => inferInstanceAs (Decidable (that ∈ waiting s.queues w))
  | .core c => inferInstanceAs (Decidable (s.lifePointer c = some that))

def waitingroomEquiv (cfg : Config) : Fin cfg.semaphores ⊕ Fin cfg.bells ≃ Waitingroom cfg where
  toFun := Sum.elim .semaphore .bell
  invFun | .semaphore id => .inl id | .bell id => .inr id
  left_inv := by rintro (_ | _) <;> rfl
  right_inv := by rintro (_ | _) <;> rfl

def threadEquiv (cfg : Config) : Fin cfg.cores ⊕ Fin cfg.threads ≃ Thread cfg where
  toFun := Sum.elim .idlethread .app
  invFun | .idlethread core => .inl core | .app id => .inr id
  left_inv := by rintro (_ | _) <;> rfl
  right_inv := by rintro (_ | _) <;> rfl

instance : Fintype (Waitingroom cfg) := Fintype.ofEquiv _ (waitingroomEquiv cfg)
instance : Fintype (Thread cfg) := Fintype.ofEquiv _ (threadEquiv cfg)

theorem card_thread (cfg : Config) : Fintype.card (Thread cfg) = cfg.cores + cfg.threads := by
  rw [← Fintype.card_congr (threadEquiv cfg)]; simp

/-- The thread is in no list and on no core. -/
def Kernel.Absent (s : Kernel cfg Q) (that : Thread cfg) : Prop :=
  that ∉ ready s.queues ∧ (∀ w, that ∉ waiting s.queues w) ∧ ∀ c, s.lifePointer c ≠ some that

instance (s : Kernel cfg Q) (that : Thread cfg) : Decidable (s.Absent that) :=
  inferInstanceAs (Decidable (_ ∧ _ ∧ _))

/-- A user thread, not an idle one, is running on the core. -/
def Kernel.AppOn (s : Kernel cfg Q) (core : Fin cfg.cores) : Prop :=
  ∃ id, s.lifePointer core = some (.app id)

instance (s : Kernel cfg Q) (core : Fin cfg.cores) : Decidable (s.AppOn core) :=
  inferInstanceAs (Decidable (∃ _, _))

/-- A thread is readied while it is nowhere, and idle threads never are; a core is
scheduled once, first of all; `IdleThread::action` and the epilogues only ever call
`resume`, so it is a user thread that blocks or is killed; a sleeper's bell is a
fresh object. -/
def Op.Granted (core : Fin cfg.cores) (s : Kernel cfg Q) : Op cfg → Prop
  | .ready that => (∃ id, that = .app id) ∧ s.Absent that
  | .schedule => s.lifePointer core = none
  | .resume | .exit | .watch | .assassin => s.lifePointer core ≠ none
  | .p _ => s.AppOn core
  | .sleep bell _ => s.AppOn core ∧ waiting s.queues (.bell bell) = []
  | .kill that => ∃ id, that = .app id
  | .v _ | .ring _ | .check | .destroy _ => True

instance (core : Fin cfg.cores) (s : Kernel cfg Q) : ∀ op, Decidable (Op.Granted core s op)
  | .ready that => inferInstanceAs (Decidable ((∃ id, that = .app id) ∧ s.Absent that))
  | .schedule => inferInstanceAs (Decidable (s.lifePointer core = none))
  | .resume | .exit | .watch | .assassin => inferInstanceAs (Decidable (s.lifePointer core ≠ none))
  | .p _ => inferInstanceAs (Decidable (s.AppOn core))
  | .sleep bell _ => inferInstanceAs (Decidable (s.AppOn core ∧ waiting s.queues (.bell bell) = []))
  | .kill that => inferInstanceAs (Decidable (∃ id, that = .app id))
  | .v _ | .ring _ | .check | .destroy _ => inferInstanceAs (Decidable True)

/-- One granted call that returns. -/
def Kernel.step (s : Kernel cfg Q) (call : Fin cfg.cores × Op cfg) : Option (Kernel cfg Q) :=
  if call.2.Granted call.1 s then (call.2.exec call.1 s).toOption else none

theorem Kernel.step_eq_some {s after : Kernel cfg Q} {core : Fin cfg.cores} {op : Op cfg} :
    s.step (core, op) = some after ↔ op.Granted core s ∧ op.exec core s = .ok after := by
  unfold step
  by_cases granted : op.Granted core s
  · cases op.exec core s <;> simp [granted, Except.toOption]
  · simp [granted]

end MPStuBS
