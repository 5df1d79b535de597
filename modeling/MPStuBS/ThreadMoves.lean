import MPStuBS.KernelRun
import Mathlib.Algebra.BigOperators.Group.Finset.Basic

/-! The purpose of the scheduler without its data structures: threads wait in plain
lists and every kernel operation is a few moves of one thread each. A move states
when it may happen and what it does; invariants are proved once per move. -/
namespace MPStuBS

variable {cfg : Config}

/-- Where all threads are, and the history. -/
structure Threads (cfg : Config) where
  ready : List (Thread cfg)
  waiting : Waitingroom cfg → List (Thread cfg)
  waitingroom : Thread cfg → Option (Waitingroom cfg)
  killFlag : Thread cfg → Bool
  counter : Fin cfg.semaphores → Nat
  life : Fin cfg.cores → Option (Thread cfg)
  log : List (Event cfg)

inductive Move (cfg : Config) where
  | arrive (id : Fin cfg.threads)
  | start (core : Fin cfg.cores)
  | yield (core : Fin cfg.cores) (id : Fin cfg.threads)
  | abandon (core : Fin cfg.cores) (that : Thread cfg)
  | leave (core : Fin cfg.cores) (that : Thread cfg)
  | wait (core : Fin cfg.cores) (w : Waitingroom cfg) (id : Fin cfg.threads)
  | pass (sem : Fin cfg.semaphores) (that : Thread cfg)
  | increment (sem : Fin cfg.semaphores) (count : Nat)
  | hand (sem : Fin cfg.semaphores) (that : Thread cfg)
  | ring (w : Waitingroom cfg) (that : Thread cfg)
  | kill (id : Fin cfg.threads)

namespace Threads

def note (v : Threads cfg) (event : Event cfg) : Threads cfg := { v with log := v.log ++ [event] }

def append (v : Threads cfg) (that : Thread cfg) : Threads cfg :=
  { v with ready := v.ready ++ [that] }.note (.appended that)

/-- The core goes on with the next ready thread, or idles. -/
def switch (v : Threads cfg) (core : Fin cfg.cores) : Threads cfg :=
  match v.ready with
  | [] => { v with life := Function.update v.life core (some (.idlethread core)) }.note (.idled core)
  | next :: rest => { v with
      ready := rest
      life := Function.update v.life core (some next) }.note (.dispatched core next)

def join (v : Threads cfg) (w : Waitingroom cfg) (that : Thread cfg) : Threads cfg :=
  { v with
    waiting := Function.update v.waiting w (v.waiting w ++ [that])
    waitingroom := Function.update v.waitingroom that (some w) }.note (.blocked w that)

def wake (v : Threads cfg) (w : Waitingroom cfg) (that : Thread cfg) : Threads cfg :=
  ({ v with
      waiting := Function.update v.waiting w (v.waiting w).tail
      waitingroom := Function.update v.waitingroom that none }.note (.woken w that)).append that

def Absent (v : Threads cfg) (that : Thread cfg) : Prop :=
  that ∉ v.ready ∧ (∀ w, that ∉ v.waiting w) ∧ ∀ c, v.life c ≠ some that

def running (v : Threads cfg) (that : Thread cfg) : Bool :=
  decide (∃ core, v.life core = some that)

def Allows (v : Threads cfg) : Move cfg → Prop
  | .arrive id => v.Absent (.app id)
  | .start core => v.life core = none
  | .yield core id => v.life core = some (.app id) ∧ v.killFlag (.app id) = false
  | .abandon core that => v.life core = some that ∧
      (that = .idlethread core ∨ v.killFlag that = true)
  | .leave core that => v.life core = some that
  | .wait core w id => v.life core = some (.app id) ∧ ∀ sem, w = .semaphore sem → v.counter sem = 0
  | .pass sem _ => 0 < v.counter sem
  | .increment sem count => v.waiting (.semaphore sem) = [] ∧ v.counter sem = count
  | .hand sem that => (v.waiting (.semaphore sem)).head? = some that ∧
      v.waitingroom that = some (.semaphore sem)
  | .ring w that => (v.waiting w).head? = some that ∧ v.waitingroom that = some w
  | .kill _ => True

def after (v : Threads cfg) : Move cfg → Threads cfg
  | .arrive id => (v.note (.readied (.app id))).append (.app id)
  | .start core => v.switch core
  | .yield core id => (v.append (.app id)).switch core
  | .abandon core _ => v.switch core
  | .leave core that => (v.note (.exited that)).switch core
  | .wait core w id => (v.join w (.app id)).switch core
  | .pass sem that => { v with
      counter := Function.update v.counter sem (v.counter sem - 1) }.note (.passed sem that)
  | .increment sem count => { v.note (.signalled sem) with
      counter := Function.update v.counter sem ((count + 1) % 2 ^ 32) }
  | .hand sem that => (v.note (.signalled sem)).wake (.semaphore sem) that
  | .ring w that => v.wake w that
  | .kill id => { v with
      ready := v.ready.erase (.app id)
      waitingroom := Function.update v.waitingroom (.app id) none
      killFlag := Function.update v.killFlag (.app id) true
      }.note (.killed (.app id) (v.running (.app id)))

instance (v : Threads cfg) (that : Thread cfg) : Decidable (v.Absent that) :=
  inferInstanceAs (Decidable (_ ∧ _ ∧ _))

instance (v : Threads cfg) : ∀ m, Decidable (v.Allows m)
  | .arrive id => inferInstanceAs (Decidable (v.Absent (.app id)))
  | .start core => inferInstanceAs (Decidable (v.life core = none))
  | .yield core id => inferInstanceAs (Decidable (v.life core = some (.app id) ∧ _ = false))
  | .abandon core that => inferInstanceAs (Decidable (v.life core = some that ∧ (_ ∨ _ = true)))
  | .leave core that => inferInstanceAs (Decidable (v.life core = some that))
  | .wait core w id => inferInstanceAs (Decidable (v.life core = some (.app id) ∧
      ∀ sem, w = .semaphore sem → v.counter sem = 0))
  | .pass sem _ => inferInstanceAs (Decidable (0 < v.counter sem))
  | .increment sem count => inferInstanceAs (Decidable (_ = [] ∧ v.counter sem = count))
  | .hand sem that => inferInstanceAs (Decidable (_ = some that ∧ _ = some (Waitingroom.semaphore sem)))
  | .ring w that => inferInstanceAs (Decidable (_ = some that ∧ _ = some w))
  | .kill _ => inferInstanceAs (Decidable True)

def move (v : Threads cfg) (m : Move cfg) : Option (Threads cfg) :=
  if v.Allows m then some (v.after m) else none

theorem move_eq_some {v v' : Threads cfg} {m : Move cfg} :
    v.move m = some v' ↔ v.Allows m ∧ v.after m = v' := by
  simp [move]

section Fields

variable (v : Threads cfg) (event : Event cfg) (that : Thread cfg) (core : Fin cfg.cores)
  (w : Waitingroom cfg)

@[simp] theorem note_ready : (v.note event).ready = v.ready := rfl
@[simp] theorem note_waiting : (v.note event).waiting = v.waiting := rfl
@[simp] theorem note_waitingroom : (v.note event).waitingroom = v.waitingroom := rfl
@[simp] theorem note_killFlag : (v.note event).killFlag = v.killFlag := rfl
@[simp] theorem note_counter : (v.note event).counter = v.counter := rfl
@[simp] theorem note_life : (v.note event).life = v.life := rfl
@[simp] theorem note_log : (v.note event).log = v.log ++ [event] := rfl

@[simp] theorem append_ready : (v.append that).ready = v.ready ++ [that] := rfl
@[simp] theorem append_waiting : (v.append that).waiting = v.waiting := rfl
@[simp] theorem append_waitingroom : (v.append that).waitingroom = v.waitingroom := rfl
@[simp] theorem append_killFlag : (v.append that).killFlag = v.killFlag := rfl
@[simp] theorem append_counter : (v.append that).counter = v.counter := rfl
@[simp] theorem append_life : (v.append that).life = v.life := rfl
@[simp] theorem append_log : (v.append that).log = v.log ++ [.appended that] := rfl

@[simp] theorem switch_ready : (v.switch core).ready = v.ready.tail := by
  unfold switch; split <;> simp_all
@[simp] theorem switch_waiting : (v.switch core).waiting = v.waiting := by
  unfold switch; split <;> rfl
@[simp] theorem switch_waitingroom : (v.switch core).waitingroom = v.waitingroom := by
  unfold switch; split <;> rfl
@[simp] theorem switch_killFlag : (v.switch core).killFlag = v.killFlag := by
  unfold switch; split <;> rfl
@[simp] theorem switch_counter : (v.switch core).counter = v.counter := by
  unfold switch; split <;> rfl
@[simp] theorem switch_life : (v.switch core).life =
    Function.update v.life core (some (v.ready.head?.getD (.idlethread core))) := by
  unfold switch; split <;> simp_all
@[simp] theorem switch_log : (v.switch core).log = v.log ++
    [match v.ready.head? with | none => .idled core | some next => .dispatched core next] := by
  unfold switch; split <;> simp_all

@[simp] theorem join_ready : (v.join w that).ready = v.ready := rfl
@[simp] theorem join_waiting : (v.join w that).waiting =
    Function.update v.waiting w (v.waiting w ++ [that]) := rfl
@[simp] theorem join_waitingroom : (v.join w that).waitingroom =
    Function.update v.waitingroom that (some w) := rfl
@[simp] theorem join_killFlag : (v.join w that).killFlag = v.killFlag := rfl
@[simp] theorem join_counter : (v.join w that).counter = v.counter := rfl
@[simp] theorem join_life : (v.join w that).life = v.life := rfl
@[simp] theorem join_log : (v.join w that).log = v.log ++ [.blocked w that] := rfl

@[simp] theorem wake_ready : (v.wake w that).ready = v.ready ++ [that] := rfl
@[simp] theorem wake_waiting : (v.wake w that).waiting =
    Function.update v.waiting w (v.waiting w).tail := rfl
@[simp] theorem wake_waitingroom : (v.wake w that).waitingroom =
    Function.update v.waitingroom that none := rfl
@[simp] theorem wake_killFlag : (v.wake w that).killFlag = v.killFlag := rfl
@[simp] theorem wake_counter : (v.wake w that).counter = v.counter := rfl
@[simp] theorem wake_life : (v.wake w that).life = v.life := rfl
@[simp] theorem wake_log : (v.wake w that).log = v.log ++ [.woken w that, .appended that] := by
  simp [wake]

end Fields

end Threads
end MPStuBS
