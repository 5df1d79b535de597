import MPStuBS.GateQueue
import MPStuBS.Ticketlock

/-! `interrupt/guard.cc`, `interrupt_handler` and `Thread::kickoff` as they run on many
cores: every statement that reads or writes shared state is a step of its own, an
interrupt comes between any two steps of a core that has interrupts enabled, and a
thread switch takes the whole call stack along. -/
namespace MPStuBS

/-- Core numbers are `unsigned`. -/
structure Platform where
  cores : Nat
  threads : Nat
  gates : Nat
  unsigned : cores ≤ 2 ^ 32

/-- A stack: the one a core boots on, or the one of a thread. -/
inductive Context (p : Platform) where
  | boot (core : Fin p.cores)
  | thread (id : Fin p.threads)
  deriving DecidableEq

/-- Inside `Guard::enter`, before the statement named. -/
inductive EnterPc where
  | disable
  | mark (wasEnabled : Bool)
  | restore (wasEnabled : Bool)
  | take
  | spin (ticket : BitVec 64)
  deriving DecidableEq

/-- Inside `Guard::leave`. -/
inductive LeavePc (gates : Nat) where
  | disable
  | dequeue (wasEnabled : Bool)
  | enable (wasEnabled : Bool) (item : Fin gates)
  | call (wasEnabled : Bool) (item : Fin gates)
  | epilogue (wasEnabled : Bool) (item : Fin gates)
  | again (wasEnabled : Bool)
  | clear (wasEnabled : Bool)
  | unlock (wasEnabled : Bool)
  | restore (wasEnabled : Bool)
  deriving DecidableEq

/-- Inside `interrupt_handler` and the call of `Guard::relay` it ends with. -/
inductive RelayPc (gates : Nat) where
  | prologue (item : Fin gates)
  | enqueue (item : Fin gates)
  | disable
  | test (wasEnabled : Bool)
  | restoreEnter (wasEnabled : Bool)
  | enter (pc : EnterPc)
  | entered
  | leave (pc : LeavePc gates)
  | restore (wasEnabled : Bool)
  | iret
  deriving DecidableEq

/-- A call stack: thread code, one of the calls it makes, or an interrupt handler on
top of what it interrupted. -/
inductive Control (gates : Nat) where
  | user
  | critical
  | kickoff
  | entering (pc : EnterPc)
  | leaving (pc : LeavePc gates)
  | interrupted (pc : RelayPc gates) (below : Control gates)
  deriving DecidableEq

namespace Control

variable {gates : Nat}

/-- After the epilogue that is running now. -/
def finish : Control gates → Option (Control gates)
  | .leaving (.epilogue was _) => some (.leaving (.again was))
  | .interrupted (.leave (.epilogue was _)) below => some (.interrupted (.leave (.again was)) below)
  | _ => none

/-- Code that may call the dispatcher: a critical section or an epilogue. -/
def Dispatches (control : Control gates) : Prop := control = .critical ∨ control.finish.isSome

instance (control : Control gates) : Decidable control.Dispatches :=
  inferInstanceAs (Decidable (_ ∨ _))

end Control

/-- What happens at the lock. -/
inductive GuardEvent (p : Platform) where
  | entered (core : Fin p.cores)
  | epilogue (core : Fin p.cores) (item : Fin p.gates)
  | unlocked (core : Fin p.cores)
  deriving DecidableEq

structure Guard (p : Platform) where
  running : Fin p.cores → Context p
  control : Context p → Control p.gates
  enabled : Fin p.cores → Bool
  locked : Fin p.cores → Bool
  bkl : Ticketlock
  gatequeue : GateQueue p.cores p.gates
  log : List (GuardEvent p)

namespace Guard

variable {p : Platform}

/-- Every core runs its boot code with interrupts off; no thread has run yet. -/
def boot : Guard p where
  running := .boot
  control | .boot _ => .user | .thread _ => .kickoff
  enabled := fun _ => false
  locked := fun _ => false
  bkl := .new
  gatequeue := .new
  log := []

/-- What the core executes. -/
def executing (s : Guard p) (core : Fin p.cores) : Control p.gates := s.control (s.running core)

def goto (s : Guard p) (core : Fin p.cores) (control : Control p.gates) : Guard p :=
  { s with control := Function.update s.control (s.running core) control }

def setEnabled (s : Guard p) (core : Fin p.cores) (value : Bool) : Guard p :=
  { s with enabled := Function.update s.enabled core value }

/-- `Core::Interrupt::restore` never disables. -/
def restore (s : Guard p) (core : Fin p.cores) (wasEnabled : Bool) : Guard p :=
  if wasEnabled then s.setEnabled core true else s

def setLocked (s : Guard p) (core : Fin p.cores) (value : Bool) : Guard p :=
  { s with locked := Function.update s.locked core value }

def note (s : Guard p) (event : GuardEvent p) : Guard p := { s with log := s.log ++ [event] }

/-- The statement of `enter` at `pc`; a core that spins without success stays there. -/
def enter (s : Guard p) (core : Fin p.cores) (wrap : EnterPc → Control p.gates)
    (done : Control p.gates) : EnterPc → Guard p
  | .disable => (s.setEnabled core false).goto core (wrap (.mark (s.enabled core)))
  | .mark was => (s.setLocked core true).goto core (wrap (.restore was))
  | .restore was => (s.restore core was).goto core (wrap .take)
  | .take => { s with bkl := s.bkl.take.2 }.goto core (wrap (.spin s.bkl.take.1))
  | .spin ticket =>
    if ticket = s.bkl.ticketCurrent then (s.note (.entered core)).goto core done else s

/-- The statement of `leave` at `pc`. -/
def leave (s : Guard p) (core : Fin p.cores) (wrap : LeavePc p.gates → Control p.gates)
    (done : Control p.gates) : LeavePc p.gates → Option (Guard p)
  | .disable => some ((s.setEnabled core false).goto core (wrap (.dequeue (s.enabled core))))
  | .dequeue was =>
    let (item, gatequeue) := s.gatequeue.dequeue core
    some ({ s with gatequeue := gatequeue }.goto core (wrap (match item with
      | none => .clear was
      | some item => .enable was item)))
  | .enable was item => some ((s.setEnabled core true).goto core (wrap (.call was item)))
  | .call was item => some ((s.note (.epilogue core item)).goto core (wrap (.epilogue was item)))
  | .epilogue .. => none
  | .again was => some ((s.setEnabled core false).goto core (wrap (.dequeue was)))
  | .clear was => some ((s.setLocked core false).goto core (wrap (.unlock was)))
  | .unlock was => some ({ s with bkl := s.bkl.unlock }.note (.unlocked core) |>.goto core
      (wrap (.restore was)))
  | .restore was => some ((s.restore core was).goto core done)

/-- The next statement of the handler at `pc`, above the code it interrupted. The search
for duplicates may not end; then there is no next state. -/
def relay (s : Guard p) (core : Fin p.cores) (below : Control p.gates) :
    RelayPc p.gates → Option (Guard p)
  | .prologue item => some (s.goto core (.interrupted (.enqueue item) below))
  | .enqueue item => (s.gatequeue.enqueue core item).map fun (accepted, gatequeue) =>
      { s with gatequeue := gatequeue }.goto core
        (.interrupted (if accepted then .disable else .iret) below)
  | .disable => some ((s.setEnabled core false).goto core
      (.interrupted (.test (s.enabled core)) below))
  | .test was => some (s.goto core
      (.interrupted (if s.locked core then .restore was else .restoreEnter was) below))
  | .restoreEnter was => some ((s.restore core was).goto core (.interrupted (.enter .disable) below))
  | .enter pc => some (s.enter core (fun pc => .interrupted (.enter pc) below)
      (.interrupted .entered below) pc)
  | .entered => some ((s.setEnabled core false).goto core (.interrupted (.leave .disable) below))
  | .leave pc => s.leave core (fun pc => .interrupted (.leave pc) below) (.interrupted .iret below) pc
  | .restore was => some ((s.restore core was).goto core (.interrupted .iret below))
  | .iret => some ((s.setEnabled core true).goto core below)

/-- The next statement of guard code. -/
def proceed (s : Guard p) (core : Fin p.cores) : Option (Guard p) :=
  match s.executing core with
  | .user | .critical => none
  | .kickoff => some (s.goto core (.leaving .disable))
  | .entering pc => some (s.enter core .entering .critical pc)
  | .leaving pc => s.leave core .leaving .user pc
  | .interrupted pc below => s.relay core below pc

inductive Action (p : Platform) where
  | proceed (core : Fin p.cores)
  | enter (core : Fin p.cores)
  | leave (core : Fin p.cores)
  | finish (core : Fin p.cores)
  | decline (core : Fin p.cores)
  | setEnabled (core : Fin p.cores) (value : Bool)
  | dispatch (core : Fin p.cores) (next : Context p)
  | interrupt (core : Fin p.cores) (item : Fin p.gates)
  deriving DecidableEq

/-- Thread code enters and leaves; an epilogue returns; a prologue may want none; code
outside the guard functions may switch interrupts on and off; the dispatcher goes on
with a context that runs nowhere; and an interrupt arrives. -/
def step (s : Guard p) : Action p → Option (Guard p)
  | .proceed core => s.proceed core
  | .enter core => if s.executing core = .user then some (s.goto core (.entering .disable)) else none
  | .leave core => if s.executing core = .critical then some (s.goto core (.leaving .disable)) else none
  | .finish core => (s.executing core).finish.map (s.goto core)
  | .decline core =>
    match s.executing core with
    | .interrupted (.prologue _) below => some (s.goto core (.interrupted .iret below))
    | _ => none
  | .setEnabled core value =>
    if s.executing core = .user ∨ (s.executing core).Dispatches then some (s.setEnabled core value) else none
  | .dispatch core next =>
    if (s.executing core).Dispatches ∧ ∀ other, s.running other ≠ next then
      some { s with running := Function.update s.running core next }
    else none
  | .interrupt core item =>
    if s.enabled core then
      some ((s.setEnabled core false).goto core (.interrupted (.prologue item) (s.executing core)))
    else none

end Guard
end MPStuBS
