import MPStuBS.Queue
import MPStuBS.Bellringer
import Mathlib.Data.Fintype.Sum

/-! The kernel operations on threads: `thread/scheduler.cc`, `thread/dispatcher.cc`,
`thread/assassin.cc`, `sync/semaphore.cc`, `sync/waitingroom.cc`, `sync/bell.cc` and
the timer epilogue of `device/watch.cc`. Each runs on one core under the big kernel
lock, so an operation is one step. They are written over the interface
`ThreadQueues`; `Pointers` is the memory the source works on. -/
namespace MPStuBS

/-- How many objects of each kind the system has. -/
structure Config where
  cores : Nat
  threads : Nat
  semaphores : Nat
  bells : Nat

/-- Every core has its own idle thread; `app` are all other thread objects. -/
inductive Thread (cfg : Config) where
  | idlethread (core : Fin cfg.cores)
  | app (id : Fin cfg.threads)
  deriving DecidableEq, Repr

instance {cfg : Config} : LawfulBEq (Thread cfg) := inferInstance

inductive Waitingroom (cfg : Config) where
  | semaphore (id : Fin cfg.semaphores)
  | bell (id : Fin cfg.bells)
  deriving DecidableEq, Repr

/-- Why an operation does not return: it dereferences a null pointer, or it loops. -/
inductive Fault where
  | nullPointer
  | endless
  deriving DecidableEq, Repr

variable {cfg : Config}

/-- What happened to threads, oldest first. No operation reads it. -/
inductive Event (cfg : Config) where
  | readied (that : Thread cfg)
  | appended (that : Thread cfg)
  | dispatched (core : Fin cfg.cores) (that : Thread cfg)
  | idled (core : Fin cfg.cores)
  | exited (that : Thread cfg)
  | blocked (waitingroom : Waitingroom cfg) (that : Thread cfg)
  | woken (waitingroom : Waitingroom cfg) (that : Thread cfg)
  | passed (id : Fin cfg.semaphores) (that : Thread cfg)
  | signalled (id : Fin cfg.semaphores)
  | killed (that : Thread cfg) (running : Bool)
  deriving DecidableEq, Repr

/-- The ready list and the queue inside every waiting room. A removal that never ends
has no result. -/
class ThreadQueues (cfg : outParam Config) (Q : Type) where
  ready : Q → List (Thread cfg)
  waiting : Q → Waitingroom cfg → List (Thread cfg)
  readyEnqueue : Q → Thread cfg → Q
  readyDequeue : Q → Option (Thread cfg) × Q
  readyRemove : Q → Thread cfg → Option (Option (Thread cfg) × Q)
  roomNew : Q → Waitingroom cfg → Q
  roomEnqueue : Q → Waitingroom cfg → Thread cfg → Q
  roomDequeue : Q → Waitingroom cfg → Option (Thread cfg) × Q
  roomRemove : Q → Waitingroom cfg → Thread cfg → Option (Option (Thread cfg) × Q)

/-- Every `Queue<Thread>`, threaded through one `_next_node` in each thread. -/
structure Pointers (cfg : Config) where
  links : Links (Thread cfg)
  readylist : Queue (Thread cfg)
  room : Waitingroom cfg → Queue (Thread cfg)

namespace Pointers

def new : Pointers cfg := ⟨fun _ => none, .new, fun _ => .new⟩

/-- More steps than there are threads. -/
def fuel (cfg : Config) : Nat := cfg.cores + cfg.threads + 1

def setReady (q : Pointers cfg) (readylist : Queue (Thread cfg)) (links : Links (Thread cfg)) :
    Pointers cfg :=
  { q with links := links, readylist := readylist }

def setRoom (q : Pointers cfg) (waitingroom : Waitingroom cfg) (room : Queue (Thread cfg))
    (links : Links (Thread cfg)) : Pointers cfg :=
  { q with links := links, room := Function.update q.room waitingroom room }

instance : ThreadQueues cfg (Pointers cfg) where
  ready q := Chain.walk q.links (fuel cfg) q.readylist.head
  waiting q w := Chain.walk q.links (fuel cfg) (q.room w).head
  readyEnqueue q that :=
    let (readylist, links) := q.readylist.enqueue q.links that
    q.setReady readylist links
  readyDequeue q :=
    let (out, readylist, links) := q.readylist.dequeue q.links
    (out, q.setReady readylist links)
  readyRemove q that := (q.readylist.remove (fuel cfg) q.links that).map
    fun (out, readylist, links) => (out, q.setReady readylist links)
  roomNew q w := q.setRoom w .new q.links
  roomEnqueue q w that :=
    let (room, links) := (q.room w).enqueue q.links that
    q.setRoom w room links
  roomDequeue q w :=
    let (out, room, links) := (q.room w).dequeue q.links
    (out, q.setRoom w room links)
  roomRemove q w that := ((q.room w).remove (fuel cfg) q.links that).map
    fun (out, room, links) => (out, q.setRoom w room links)

end Pointers

/-- Everything else: the other thread fields, the semaphores' counters, the life
pointers, the bells and the pending inter-processor interrupts. -/
structure Kernel (cfg : Config) (Q : Type) where
  queues : Q
  waitingroom : Thread cfg → Option (Waitingroom cfg)
  killFlag : Thread cfg → Bool
  counter : Fin cfg.semaphores → Nat
  lifePointer : Fin cfg.cores → Option (Thread cfg)
  bellringer : Bellringer cfg.bells
  assassin : Fin cfg.cores → Bool
  wakeup : Fin cfg.cores → Bool
  log : List (Event cfg)

variable {Q : Type}

/-- Nothing is scheduled yet. Thread objects are static, so their kill flags start
as false although the constructor does not set them. -/
def Kernel.boot (queues : Q) (counter : Fin cfg.semaphores → Nat) : Kernel cfg Q where
  queues := queues
  waitingroom := fun _ => none
  killFlag := fun _ => false
  counter := counter
  lifePointer := fun _ => none
  bellringer := .new
  assassin := fun _ => false
  wakeup := fun _ => false
  log := []

def Kernel.note (s : Kernel cfg Q) (event : Event cfg) : Kernel cfg Q :=
  { s with log := s.log ++ [event] }

def setWaitingroom (that : Thread cfg) (w : Option (Waitingroom cfg)) (s : Kernel cfg Q) :
    Kernel cfg Q :=
  { s with waitingroom := Function.update s.waitingroom that w }

namespace Dispatcher

def active (core : Fin cfg.cores) (s : Kernel cfg Q) : Option (Thread cfg) := s.lifePointer core

def setActive (core : Fin cfg.cores) (thread : Thread cfg) (s : Kernel cfg Q) : Kernel cfg Q :=
  { s with lifePointer := Function.update s.lifePointer core (some thread) }

def go (core : Fin cfg.cores) (first : Thread cfg) (s : Kernel cfg Q) : Kernel cfg Q :=
  setActive core first s

/-- Switching away goes through the thread that is active now. -/
def dispatch (core : Fin cfg.cores) (next : Thread cfg) (s : Kernel cfg Q) :
    Except Fault (Kernel cfg Q) :=
  match active core s with
  | none => .error .nullPointer
  | some _ => .ok (setActive core next s)

/-- The first core the thread is active on, if there is one. -/
def isActive (thread : Thread cfg) (s : Kernel cfg Q) : Option (Fin cfg.cores) :=
  (List.finRange cfg.cores).find? fun core => s.lifePointer core = some thread

end Dispatcher

namespace Scheduler

open Dispatcher ThreadQueues

variable [ThreadQueues cfg Q]

/-- `readylist.enqueue(that)`. -/
def append (that : Thread cfg) (s : Kernel cfg Q) : Kernel cfg Q :=
  { s with queues := readyEnqueue s.queues that }.note (.appended that)

/-- The next thread of the ready list or else the core's idle thread. -/
def takeNext (core : Fin cfg.cores) (s : Kernel cfg Q) : Thread cfg × Kernel cfg Q :=
  match readyDequeue s.queues with
  | (none, queues) => (.idlethread core, { s with queues := queues }.note (.idled core))
  | (some thread, queues) => (thread, { s with queues := queues }.note (.dispatched core thread))

def exit (core : Fin cfg.cores) (s : Kernel cfg Q) : Except Fault (Kernel cfg Q) :=
  match active core s with
  | none => .error .nullPointer
  | some that =>
    let (thread, s) := takeNext core (s.note (.exited that))
    dispatch core thread s

def kill (that : Thread cfg) (s : Kernel cfg Q) : Except Fault (Kernel cfg Q) :=
  let s := { s with killFlag := Function.update s.killFlag that true }
  let s := setWaitingroom that none s
  let s := s.note (.killed that (isActive that s).isSome)
  match readyRemove s.queues that with
  | none => .error .endless
  | some (some _, queues) => .ok { s with queues := queues }
  | some (none, queues) =>
    match isActive that s with
    | none => .ok { s with queues := queues }
    | some cpu => .ok { s with
        queues := queues
        assassin := Function.update s.assassin cpu true }

def ready (that : Thread cfg) (s : Kernel cfg Q) : Kernel cfg Q :=
  append that (s.note (.readied that))

def resume (core : Fin cfg.cores) (s : Kernel cfg Q) : Except Fault (Kernel cfg Q) :=
  match active core s with
  | none => .error .nullPointer
  | some current =>
    let s := if s.killFlag current = false ∧ current ≠ .idlethread core then append current s else s
    let (thread, s) := takeNext core s
    dispatch core thread s

def schedule (core : Fin cfg.cores) (s : Kernel cfg Q) : Kernel cfg Q :=
  let (thread, s) := takeNext core s
  go core thread s

def block (core : Fin cfg.cores) (w : Waitingroom cfg) (s : Kernel cfg Q) :
    Except Fault (Kernel cfg Q) :=
  match active core s with
  | none => .error .nullPointer
  | some current =>
    let s := { s with queues := roomEnqueue s.queues w current }.note (.blocked w current)
    let s := setWaitingroom current (some w) s
    let (thread, s) := takeNext core s
    dispatch core thread s

end Scheduler

open ThreadQueues in
/-- Taking a thread out of the room clears its waiting room first. -/
def Waitingroom.remove [ThreadQueues cfg Q] (w : Waitingroom cfg) (customer : Thread cfg)
    (s : Kernel cfg Q) : Except Fault (Kernel cfg Q) :=
  let s := setWaitingroom customer none s
  match roomRemove s.queues w customer with
  | none => .error .endless
  | some (_, queues) => .ok { s with queues := queues }

variable [ThreadQueues cfg Q]

/-- The waiting room to leave is the one the thread names; all other cores are
interrupted. -/
def Scheduler.wakeup (core : Fin cfg.cores) (customer : Thread cfg) (s : Kernel cfg Q) :
    Except Fault (Kernel cfg Q) :=
  match s.waitingroom customer with
  | none => .error .nullPointer
  | some w => do
    let s ← w.remove customer s
    let s := append customer (s.note (.woken w customer))
    .ok { s with wakeup := fun other => if other = core then s.wakeup other else true }

open ThreadQueues

/-- The loop of `Bell::ring` and of the destructor of a waiting room: wake whoever is
first until the room is empty. -/
def Waitingroom.wakeAll (core : Fin cfg.cores) (w : Waitingroom cfg) :
    Nat → Kernel cfg Q → Except Fault (Kernel cfg Q)
  | 0, _ => .error .endless
  | fuel + 1, s =>
    match roomDequeue s.queues w with
    | (none, queues) => .ok { s with queues := queues }
    | (some customer, queues) => do
      let s ← Scheduler.wakeup core customer { s with queues := queues }
      wakeAll core w fuel s

/-- `Waitingroom::~Waitingroom`. -/
def Waitingroom.destroy (core : Fin cfg.cores) (w : Waitingroom cfg) (s : Kernel cfg Q) :
    Except Fault (Kernel cfg Q) :=
  w.wakeAll core (Pointers.fuel cfg) s

namespace Semaphore

def p (core : Fin cfg.cores) (id : Fin cfg.semaphores) (s : Kernel cfg Q) :
    Except Fault (Kernel cfg Q) :=
  match Dispatcher.active core s with
  | none => .error .nullPointer
  | some current =>
    if 0 < s.counter id then
      .ok ({ s with counter := Function.update s.counter id (s.counter id - 1) }.note
        (.passed id current))
    else Scheduler.block core (.semaphore id) s

def v (core : Fin cfg.cores) (id : Fin cfg.semaphores) (s : Kernel cfg Q) :
    Except Fault (Kernel cfg Q) :=
  let s := s.note (.signalled id)
  match roomDequeue s.queues (.semaphore id) with
  | (some first, queues) => Scheduler.wakeup core first { s with queues := queues }
  | (none, queues) => .ok { s with
      queues := queues
      counter := Function.update s.counter id ((s.counter id + 1) % 2 ^ 32) }

end Semaphore

namespace Bell

def ring (core : Fin cfg.cores) (bell : Fin cfg.bells) (s : Kernel cfg Q) :
    Except Fault (Kernel cfg Q) :=
  (Waitingroom.bell bell).wakeAll core (Pointers.fuel cfg) s

/-- The bell lives at the address `bell` while the caller sleeps. -/
def sleep (core : Fin cfg.cores) (bell : Fin cfg.bells) (ms : Nat) (s : Kernel cfg Q) :
    Except Fault (Kernel cfg Q) :=
  if ms = 0 then .ok s
  else
    match (s.bellringer.construct bell ms).job bell ms with
    | none => .error .endless
    | some bellringer => Scheduler.block core (.bell bell) { s with
        queues := roomNew s.queues (.bell bell)
        bellringer := bellringer }

end Bell

/-- `Bellringer::check`, ringing the bells that are due. -/
def Bellringer.checkAll (core : Fin cfg.cores) (s : Kernel cfg Q) : Except Fault (Kernel cfg Q) :=
  match s.bellringer.check with
  | none => .error .endless
  | some (bellringer, rung) =>
    rung.foldlM (fun s bell => Bell.ring core bell s) { s with bellringer := bellringer }

/-- `Watch::epilogue`: the first core's timer also drives the bells. -/
def Watch.epilogue (core : Fin cfg.cores) (s : Kernel cfg Q) : Except Fault (Kernel cfg Q) := do
  let s ← if core.val = 0 then Bellringer.checkAll core s else .ok s
  Scheduler.resume core s

/-- `Assassin::epilogue`, on delivery of the interrupt `kill` sent. -/
def Assassin.epilogue (core : Fin cfg.cores) (s : Kernel cfg Q) : Except Fault (Kernel cfg Q) :=
  let s := { s with assassin := Function.update s.assassin core false }
  match Dispatcher.active core s with
  | none => .error .nullPointer
  | some current => if s.killFlag current then Scheduler.resume core s else .ok s

end MPStuBS
