import MPStuBS.BBuffer
import MPStuBS.KernelPlacement

/-! `device/keyboard.cc` and `GuardedKeyboard::getKey`. The prologue may run between any
two statements of the epilogue: a step of either touches at most one variable that the
other writes. What happens under the big kernel lock is one step up to the next point
where the prologue matters or the thread is switched away. -/
namespace MPStuBS

structure Key where
  scancode : UInt8
  shift : Bool
  altLeft : Bool
  altRight : Bool
  ctrlLeft : Bool
  ctrlRight : Bool
  capsLock : Bool
  numLock : Bool
  scrollLock : Bool
  deriving DecidableEq, Repr

namespace Key

def KEY_DEL : UInt8 := 83

def alt (key : Key) : Bool := key.altLeft || key.altRight

def ctrl (key : Key) : Bool := key.ctrlLeft || key.ctrlRight

/-- What `Key()` makes. -/
def invalid : Key := ⟨0, false, false, false, false, false, false, false, false⟩

end Key

def BUFFER_SIZE : Nat := 1024

/-- Inside `Keyboard::prologue` and the `produce` it ends with, before the statement named. -/
inductive ProloguePc where
  | idle
  | test (input : Key)
  | store (input : Key)
  | publish (input : Key)
  deriving DecidableEq

/-- Inside `Keyboard::epilogue` and the `consume` of its loop condition. -/
inductive EpiloguePc where
  | test
  | read
  | release (k : Key)
  | deliver (k : Key)
  deriving DecidableEq

/-- `reading` are the threads inside `getKey` that have not consumed, `moved` the keys
the epilogue took and whether the second buffer accepted them. -/
structure Keyboard (cfg : Config) where
  kernel : Kernel cfg (Pointers cfg)
  pro : BBuffer Key BUFFER_SIZE
  epi : BBuffer Key BUFFER_SIZE
  prologue : ProloguePc
  epilogue : Option (Fin cfg.cores × EpiloguePc)
  rebooted : Bool
  reading : Thread cfg → Bool
  failed : Bool
  accepted : List Key
  moved : List (Key × Bool)
  returned : List (Thread cfg × Key)

namespace Keyboard

variable {cfg : Config}

open ThreadQueues

/-- The semaphore starts with 0; the buffers of the static object hold zeroes. -/
def boot (semaphore : Fin cfg.semaphores) (counter : Fin cfg.semaphores → Nat) : Keyboard cfg where
  kernel := .boot .new (Function.update counter semaphore 0)
  pro := .new (by decide) fun _ => .invalid
  epi := .new (by decide) fun _ => .invalid
  prologue := .idle
  epilogue := none
  rebooted := false
  reading := fun _ => false
  failed := false
  accepted := []
  moved := []
  returned := []

/-- The interrupt up to the call of `produce`. `System::reboot` only writes to ports,
so the key that asks for it is stored like any other. -/
def interrupt (fetched : Option Key) (s : Keyboard cfg) : Option (Keyboard cfg) :=
  match s.prologue, fetched with
  | .idle, none => some s
  | .idle, some input => some { s with
      prologue := .test input
      rebooted := s.rebooted || (input.ctrl && input.alt && input.scancode == Key.KEY_DEL) }
  | _, _ => none

/-- The next statement of the prologue. -/
def produce (s : Keyboard cfg) : Option (Keyboard cfg) :=
  match s.prologue with
  | .idle => none
  | .test input => some { s with
      prologue := if BBuffer.next s.pro.input ≠ s.pro.out then .store input else .idle }
  | .store input => some { s with pro := s.pro.store input, prologue := .publish input }
  | .publish input => some { s with
      pro := s.pro.publish
      prologue := .idle
      accepted := s.accepted ++ [input] }

/-- The next statement of the epilogue. -/
def advance (semaphore : Fin cfg.semaphores) (s : Keyboard cfg) : Option (Keyboard cfg) :=
  match s.epilogue with
  | none => none
  | some (core, .test) => some { s with
      epilogue := if s.pro.input ≠ s.pro.out then some (core, .read) else none }
  | some (core, .read) => some { s with epilogue := some (core, .release (s.pro.data s.pro.out)) }
  | some (core, .release k) => some { s with pro := s.pro.release, epilogue := some (core, .deliver k) }
  | some (core, .deliver k) =>
    match s.epi.produce k with
    | (false, _) => some { s with epilogue := some (core, .test), moved := s.moved ++ [(k, false)] }
    | (true, epi) => (Semaphore.v core semaphore s.kernel).toOption.map fun kernel => { s with
        kernel := kernel
        epi := epi
        epilogue := some (core, .test)
        moved := s.moved ++ [(k, true)] }

/-- The end of `getKey`, after `semaphore.p()`. -/
def take (that : Thread cfg) (s : Keyboard cfg) : Keyboard cfg :=
  match s.epi.consume with
  | (none, _) => { s with failed := true }
  | (some k, epi) => { s with
      epi := epi
      reading := Function.update s.reading that false
      returned := s.returned ++ [(that, k)] }

/-- A thread calls `getKey`: either `p` returns to it at once or it is switched away. -/
def getKey (core : Fin cfg.cores) (semaphore : Fin cfg.semaphores) (s : Keyboard cfg) :
    Option (Keyboard cfg) :=
  match Dispatcher.active core s.kernel with
  | none => none
  | some that => (Semaphore.p core semaphore s.kernel).toOption.map fun kernel =>
      if 0 < s.kernel.counter semaphore then take that { s with kernel := kernel }
      else { s with kernel := kernel, reading := Function.update s.reading that true }

/-- No thread is inside `getKey` on this core. -/
def Outside (core : Fin cfg.cores) (s : Keyboard cfg) : Prop :=
  ∀ that, s.kernel.lifePointer core = some that → s.reading that = false

instance (core : Fin cfg.cores) (s : Keyboard cfg) : Decidable (s.Outside core) :=
  inferInstanceAs (Decidable (∀ _, _))

/-- Calls by anyone else: the semaphore is private, and no reader is killed. -/
def Foreign (semaphore : Fin cfg.semaphores) (s : Keyboard cfg) : Op cfg → Prop
  | .p other | .v other => other ≠ semaphore
  | .destroy w => w ≠ .semaphore semaphore
  | .kill that => s.reading that = false
  | _ => True

instance (semaphore : Fin cfg.semaphores) (s : Keyboard cfg) : ∀ op, Decidable (s.Foreign semaphore op)
  | .p other | .v other => inferInstanceAs (Decidable (other ≠ semaphore))
  | .destroy w => inferInstanceAs (Decidable (w ≠ .semaphore semaphore))
  | .kill that => inferInstanceAs (Decidable (s.reading that = false))
  | .ready _ | .schedule | .resume | .exit | .sleep .. | .ring _ | .check | .watch | .assassin =>
    inferInstanceAs (Decidable True)

inductive Action (cfg : Config) where
  | interrupt (fetched : Option Key)
  | produce
  | begin (core : Fin cfg.cores)
  | advance
  | getKey (core : Fin cfg.cores)
  | proceed (core : Fin cfg.cores)
  | call (core : Fin cfg.cores) (op : Op cfg)
  deriving DecidableEq

/-- The prologue runs at any time. The guard lets threads and other epilogues run only
while no epilogue of the keyboard does. A reader that had to wait proceeds when a core
dispatches it. -/
def step (semaphore : Fin cfg.semaphores) (s : Keyboard cfg) : Action cfg → Option (Keyboard cfg)
  | .interrupt fetched => s.interrupt fetched
  | .produce => s.produce
  | .begin core => if s.epilogue = none then some { s with epilogue := some (core, .test) } else none
  | .advance => s.advance semaphore
  | .getKey core =>
    if s.epilogue = none ∧ s.Outside core ∧ s.kernel.AppOn core then s.getKey core semaphore else none
  | .proceed core =>
    match Dispatcher.active core s.kernel with
    | none => none
    | some that => if s.epilogue = none ∧ s.reading that then some (s.take that) else none
  | .call core op =>
    if s.epilogue = none ∧ s.Outside core ∧ s.Foreign semaphore op then
      (s.kernel.step (core, op)).map fun kernel => { s with kernel := kernel }
    else none

end Keyboard
end MPStuBS
