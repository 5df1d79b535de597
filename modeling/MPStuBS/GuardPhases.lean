import MPStuBS.Guard

/-! What the position of a call stack says about the core it runs on: whether the core
takes part in the lock, whether its flag is set, whether interrupts must be off and
whether gates may wait in its queue. -/
namespace MPStuBS

variable {gates : Nat}

open Ticketlock (Role)

namespace EnterPc

def role : EnterPc → Role
  | .spin ticket => .waiting ticket
  | .disable | .mark _ | .restore _ | .take => .away

def marks : EnterPc → Bool
  | .disable | .mark _ => false
  | .restore _ | .take | .spin _ => true

end EnterPc

namespace LeavePc

def role : LeavePc gates → Role
  | .restore _ => .away
  | _ => .holding

def marks : LeavePc gates → Bool
  | .unlock _ | .restore _ => false
  | _ => true

/-- The queue was found empty and interrupts stay off from there on. -/
def mayHold : LeavePc gates → Bool
  | .clear _ | .unlock _ | .restore _ => false
  | _ => true

def masked : LeavePc gates → Bool
  | .dequeue _ | .clear _ | .unlock _ | .restore _ => true
  | _ => false

end LeavePc

/-- The handler has found the flag clear and takes the critical section itself. -/
def RelayPc.takesOver : RelayPc gates → Bool
  | .restoreEnter _ | .enter _ | .entered | .leave _ => true
  | _ => false

/-- What was read as the interrupt state: interrupts are off in a handler. -/
def RelayPc.ReadsOff : RelayPc gates → Prop
  | .test was | .restoreEnter was => was = false
  | _ => True

namespace Control

def role : Control gates → Role
  | .user => .away
  | .critical | .kickoff => .holding
  | .entering pc => pc.role
  | .leaving pc => pc.role
  | .interrupted (.enter pc) _ => pc.role
  | .interrupted (.leave pc) _ => pc.role
  | .interrupted .entered _ => .holding
  | .interrupted (.restoreEnter _) _ => .away
  | .interrupted _ below => below.role

/-- The value of the core's flag. -/
def marks : Control gates → Bool
  | .user => false
  | .critical | .kickoff => true
  | .entering pc => pc.marks
  | .leaving pc => pc.marks
  | .interrupted (.enter pc) _ => pc.marks
  | .interrupted (.leave pc) _ => pc.marks
  | .interrupted .entered _ => true
  | .interrupted (.restoreEnter _) _ => false
  | .interrupted _ below => below.marks

/-- Gates may wait in the core's queue, because a `leave` is still to come. -/
def mayHold : Control gates → Bool
  | .user => false
  | .critical | .kickoff => true
  | .entering pc => pc.marks
  | .leaving pc => pc.mayHold
  | .interrupted (.leave pc) _ => pc.mayHold
  | .interrupted (.prologue _) below | .interrupted (.enqueue _) below
  | .interrupted (.restore _) below | .interrupted .iret below => below.mayHold
  | .interrupted _ _ => true

/-- Interrupts are off. -/
def masked : Control gates → Bool
  | .leaving pc => pc.masked
  | .interrupted (.leave pc) _ => pc.masked
  | .interrupted (.enter pc) _ => !pc.marks
  | .interrupted (.prologue _) _ | .interrupted (.enqueue _) _ | .interrupted .disable _
  | .interrupted (.test _) _ | .interrupted (.restoreEnter _) _ => true
  | _ => false

/-- Only code with interrupts on was interrupted, and a handler that takes the critical
section found it free. -/
def Sound : Control gates → Prop
  | .interrupted pc below => below.Sound ∧ below.masked = false ∧ pc.ReadsOff ∧
      (pc.takesOver = true → below.role = .away ∧ below.marks = false)
  | _ => True

variable {control : Control gates}

/-- A handler that does not take the critical section. -/
theorem Sound.nested {pc : RelayPc gates} {below : Control gates} (sound : below.Sound)
    (unmasked : below.masked = false) (off : pc.ReadsOff) (keeps : pc.takesOver = false) :
    (interrupted pc below).Sound :=
  ⟨sound, unmasked, off, by simp [keeps]⟩

/-- Outside the guard functions an unset flag means an empty queue and no lock. -/
theorem unmarked (sound : control.Sound) (unmasked : control.masked = false)
    (unmarked : control.marks = false) : control.role = .away ∧ control.mayHold = false := by
  induction control with
  | user => exact ⟨rfl, rfl⟩
  | critical | kickoff => cases unmarked
  | entering pc => cases pc <;> simp_all [marks, role, mayHold, EnterPc.marks, EnterPc.role]
  | leaving pc =>
    cases pc <;> simp_all [marks, masked, LeavePc.marks, LeavePc.masked]
  | interrupted pc below ih =>
    obtain ⟨soundBelow, unmaskedBelow, _⟩ := sound
    cases pc with
    | restore was => exact ih soundBelow unmaskedBelow unmarked
    | iret => exact ih soundBelow unmaskedBelow unmarked
    | enter pc => simp_all [marks, masked]
    | leave pc => cases pc <;> simp_all [marks, masked, LeavePc.marks, LeavePc.masked]
    | entered => cases unmarked
    | prologue | enqueue | disable | test | restoreEnter => cases unmasked

/-- A set flag means that a `leave` is still to come. -/
theorem marked (sound : control.Sound) (unmasked : control.masked = false)
    (marked : control.marks = true) : control.mayHold = true := by
  induction control with
  | user => cases marked
  | critical | kickoff => rfl
  | entering pc => exact marked
  | leaving pc =>
    cases pc <;> simp_all [marks, masked, mayHold, LeavePc.marks, LeavePc.masked, LeavePc.mayHold]
  | interrupted pc below ih =>
    obtain ⟨soundBelow, unmaskedBelow, _⟩ := sound
    cases pc with
    | restore was => exact ih soundBelow unmaskedBelow marked
    | iret => exact ih soundBelow unmaskedBelow marked
    | enter pc => rfl
    | leave pc =>
      cases pc <;> simp_all [marks, masked, mayHold, LeavePc.marks, LeavePc.masked, LeavePc.mayHold]
    | entered => rfl
    | prologue | enqueue | disable | test | restoreEnter => cases unmasked

/-- Whoever may be switched away or back holds the lock. -/
theorem inside (inside : control = .kickoff ∨ control.Dispatches) :
    control.role = .holding ∧ control.marks = true ∧ control.mayHold = true ∧
      control.masked = false := by
  rcases inside with rfl | rfl | runs
  · exact ⟨rfl, rfl, rfl, rfl⟩
  · exact ⟨rfl, rfl, rfl, rfl⟩
  · unfold finish at runs
    split at runs
    · exact ⟨rfl, rfl, rfl, rfl⟩
    · exact ⟨rfl, rfl, rfl, rfl⟩
    · cases runs

end Control
end MPStuBS
