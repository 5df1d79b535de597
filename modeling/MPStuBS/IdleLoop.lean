import MPStuBS.KernelMoves

/-! The loop of `thread/idlethread.cc` on every core, beside the kernel operations of the
other cores. The ready list is tested outside the kernel lock with interrupts disabled;
`Core::idle` enables them and halts in one step. `thread/wakeup.cc` asks for no epilogue. -/
namespace MPStuBS

variable {cfg : Config} {Q : Type} [ThreadQueues cfg Q]

open ThreadQueues

/-- The next instruction of a core's idle thread: `Interrupt::disable`, `isEmpty`,
`Core::idle`, the instruction after the halt, `Interrupt::enable` or `resume`. -/
inductive Idling where
  | looping
  | disabled
  | empty
  | halted
  | occupied
  | enabled
  deriving DecidableEq, Repr

namespace Idling

/-- Interrupts are disabled from the start of the loop to `Core::idle` or `enable`. -/
def masked : Idling → Bool
  | .disabled | .empty | .occupied => true
  | .looping | .halted | .enabled => false

/-- An interrupt ends the halt. -/
def interrupted : Idling → Idling
  | .halted => .looping
  | other => other

/-- The list was found empty, and no interrupt has been taken since. -/
def committed : Idling → Bool
  | .empty | .halted => true
  | .looping | .disabled | .occupied | .enabled => false

theorem committed_interrupted {p : Idling} (open' : p.masked = false) :
    p.interrupted.committed = false := by
  cases p <;> first | rfl | cases open'

end Idling

def Scheduler.isEmpty (s : Kernel cfg Q) : Bool := (ThreadQueues.ready s.queues).isEmpty

/-- All cores: the kernel and the positions of the idle threads. -/
structure System (cfg : Config) (Q : Type) where
  kernel : Kernel cfg Q
  idling : Fin cfg.cores → Idling

def System.boot (queues : Q) (counter : Fin cfg.semaphores → Nat) : System cfg Q :=
  ⟨.boot queues counter, fun _ => .looping⟩

inductive CoreStep (cfg : Config) where
  | disable (core : Fin cfg.cores)
  | isEmpty (core : Fin cfg.cores)
  | idle (core : Fin cfg.cores)
  | enable (core : Fin cfg.cores)
  | resume (core : Fin cfg.cores)
  | wakeup (core : Fin cfg.cores)
  | interrupt (core : Fin cfg.cores)
  | call (core : Fin cfg.cores) (op : Op cfg)
  deriving DecidableEq, Repr

namespace System

def goto (s : System cfg Q) (core : Fin cfg.cores) (position : Idling) : System cfg Q :=
  { s with idling := Function.update s.idling core position }

/-- A call comes from the thread on the core or from an epilogue that interrupted it. -/
def step (s : System cfg Q) : CoreStep cfg → Option (System cfg Q)
  | .disable core =>
    if s.kernel.lifePointer core = some (.idlethread core) ∧ s.idling core = .looping then
      some (s.goto core .disabled) else none
  | .isEmpty core =>
    if s.idling core = .disabled then
      some (s.goto core (if Scheduler.isEmpty s.kernel then .empty else .occupied)) else none
  | .idle core => if s.idling core = .empty then some (s.goto core .halted) else none
  | .enable core => if s.idling core = .occupied then some (s.goto core .enabled) else none
  | .resume core =>
    if s.kernel.lifePointer core = some (.idlethread core) ∧ s.idling core = .enabled then
      (s.kernel.step (core, .resume)).map fun kernel => { s with kernel := kernel }.goto core .looping
    else none
  | .wakeup core =>
    if s.kernel.wakeup core = true ∧ (s.idling core).masked = false then
      some ({ s with kernel := { s.kernel with
        wakeup := Function.update s.kernel.wakeup core false } }.goto core (s.idling core).interrupted)
    else none
  | .interrupt core =>
    if (s.idling core).masked = false then some (s.goto core (s.idling core).interrupted) else none
  | .call core op =>
    if (s.idling core).masked = false then
      (s.kernel.step (core, op)).map fun kernel =>
        { s with kernel := kernel }.goto core (s.idling core).interrupted
    else none

/-- No core sleeps while work is ready, unless it is about to be woken. -/
def Awake (s : System cfg Q) : Prop :=
  ∀ core, s.idling core = .halted → ready s.kernel.queues ≠ [] → s.kernel.wakeup core = true

/-- The same from the moment on at which the core found the list empty. -/
def Alert (s : System cfg Q) : Prop :=
  ∀ core, (s.idling core).committed = true → ready s.kernel.queues ≠ [] → s.kernel.wakeup core = true

/-- Whenever a thread is readied, every other core that has found the list empty is
about to be woken by an earlier call. -/
def Announced (s : System cfg Q) : CoreStep cfg → Prop
  | .call core (.ready _) =>
    ∀ other, other ≠ core → (s.idling other).committed = true → s.kernel.wakeup other = true
  | _ => True

instance (s : System cfg Q) : Decidable s.Awake := inferInstanceAs (Decidable (∀ _, _))

instance (s : System cfg Q) : ∀ a, Decidable (s.Announced a)
  | .call core op =>
    match op with
    | .ready _ => inferInstanceAs (Decidable (∀ other, other ≠ core →
        (s.idling other).committed = true → s.kernel.wakeup other = true))
    | .schedule | .resume | .exit | .kill _ | .p _ | .v _ | .sleep .. | .ring _ | .check
    | .destroy _ | .watch | .assassin => isTrue trivial
  | .disable _ | .isEmpty _ | .idle _ | .enable _ | .resume _ | .wakeup _ | .interrupt _ =>
    isTrue trivial

theorem Alert.awake {s : System cfg Q} (alert : s.Alert) : s.Awake := by
  intro core halts work
  exact alert core (by rw [halts]; rfl) work

end System
end MPStuBS
