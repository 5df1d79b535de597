import MPStuBS.GuardPhases
import MPStuBS.Run

/-! Mutual exclusion of the critical section, and no gate left waiting: one invariant
over the stacks of all contexts, the flags and queues of all cores, and the lock. -/
namespace MPStuBS.Guard

variable {p : Platform}

open Ticketlock (Role)

/-- The core inside the critical section after an event: nobody enters while someone is
inside, and only that core runs epilogues and unlocks. -/
def follow : Option (Fin p.cores) → GuardEvent p → Option (Option (Fin p.cores))
  | none, .entered core => some (some core)
  | some owner, .epilogue core _ => if core = owner then some (some owner) else none
  | some owner, .unlocked core => if core = owner then some none else none
  | _, _ => none

def owner (log : List (GuardEvent p)) : Option (Option (Fin p.cores)) := log.foldlM follow none

theorem owner_snoc (log : List (GuardEvent p)) (event : GuardEvent p) :
    owner (log ++ [event]) = (owner log).bind (follow · event) := by
  simp only [owner, List.foldlM_append, List.foldlM_cons, List.foldlM_nil]
  cases List.foldlM follow none log <;> simp

/-- The cores stand in the lock's line, and the history agrees with its holder. -/
def Exclusive (bkl : Ticketlock) (role : Fin p.cores → Role) (log : List (GuardEvent p)) : Prop :=
  (∃ row, bkl.Line role row) ∧
    ∃ holder, owner log = some holder ∧ ∀ core, role core = .holding ↔ holder = some core

section Exclusive

variable {bkl : Ticketlock} {role : Fin p.cores → Role} {log : List (GuardEvent p)}
  {core : Fin p.cores}

theorem few_cores (p : Platform) : Fintype.card (Fin p.cores) < 2 ^ 64 := by
  have := p.unsigned
  rw [Fintype.card_fin]
  omega

theorem Exclusive.same (exclusive : Exclusive bkl role log) {now : Role} (h : now = role core) :
    Exclusive bkl (Function.update role core now) log := by
  rwa [h, Function.update_eq_self]

theorem Exclusive.take (exclusive : Exclusive bkl role log) (away : role core = .away) :
    Exclusive bkl.take.2 (Function.update role core (.waiting bkl.take.1)) log := by
  obtain ⟨⟨row, ordered⟩, holder, found, agrees⟩ := exclusive
  refine ⟨⟨_, ordered.take away⟩, holder, found, fun other => ?_⟩
  by_cases same : other = core
  · subst same
    simpa [away] using (agrees other).symm
  · simpa [same] using agrees other

theorem Exclusive.acquire (exclusive : Exclusive bkl role log)
    (waits : role core = .waiting bkl.ticketCurrent) :
    Exclusive bkl (Function.update role core .holding) (log ++ [.entered core]) := by
  obtain ⟨⟨row, ordered⟩, holder, found, agrees⟩ := exclusive
  obtain ⟨ordered', free⟩ := ordered.acquire (ordered.nodup.length_le_card.trans_lt (few_cores p)) waits
  have none : holder = none := by
    cases holder with
    | none => rfl
    | some other => exact absurd ((agrees other).mpr rfl) (free other)
  subst none
  refine ⟨⟨row, ordered'⟩, some core, by rw [owner_snoc, found]; rfl, fun other => ?_⟩
  by_cases same : other = core
  · simp [same]
  · simpa [same, Ne.symm same] using free other

theorem Exclusive.release (exclusive : Exclusive bkl role log) (holds : role core = .holding) :
    Exclusive bkl.unlock (Function.update role core .away) (log ++ [.unlocked core]) := by
  obtain ⟨⟨row, ordered⟩, holder, found, agrees⟩ := exclusive
  obtain rfl := (agrees core).mp holds
  refine ⟨ordered.release holds, none, by rw [owner_snoc, found]; simp [follow], fun other => ?_⟩
  by_cases same : other = core
  · simp [same]
  · have := (agrees other)
    simp [Ne.symm same] at this
    simpa [same] using this

theorem Exclusive.epilogue (exclusive : Exclusive bkl role log) (holds : role core = .holding)
    (item : Fin p.gates) : Exclusive bkl role (log ++ [.epilogue core item]) := by
  obtain ⟨row, holder, found, agrees⟩ := exclusive
  obtain rfl := (agrees core).mp holds
  exact ⟨row, some core, by rw [owner_snoc, found]; simp [follow], agrees⟩

end Exclusive

/-- What the stack that runs on a core promises about the core. -/
structure Fits (control : Control p.gates) (enabled locked : Bool) (head : Option (Fin p.gates)) :
    Prop where
  sound : control.Sound
  masked : control.masked = true → enabled = false
  flag : locked = control.marks
  queue : control.mayHold = false → head = none

namespace Fits

variable {control : Control p.gates} {enabled locked : Bool} {head : Option (Fin p.gates)}

theorem unmasked (sound : control.Sound) (unmasked : control.masked = false)
    (flag : locked = control.marks) (queue : control.mayHold = false → head = none) :
    Fits control enabled locked head :=
  ⟨sound, by simp [unmasked], flag, queue⟩

theorem holding (sound : control.Sound) (masked : control.masked = true → enabled = false)
    (flag : locked = control.marks) (holds : control.mayHold = true) :
    Fits control enabled locked head :=
  ⟨sound, masked, flag, by simp [holds]⟩

theorem relaxed (sound : control.Sound) (unmasked : control.masked = false)
    (flag : locked = control.marks) (holds : control.mayHold = true) :
    Fits control enabled locked head :=
  ⟨sound, by simp [unmasked], flag, by simp [holds]⟩

end Fits

structure Inv (s : Guard p) : Prop where
  apart : Function.Injective s.running
  fits : ∀ core, Fits (s.executing core) (s.enabled core) (s.locked core) (s.gatequeue.head core)
  suspended : ∀ context, (∀ core, s.running core ≠ context) →
    (s.control context).Sound ∧ (s.control context = .kickoff ∨ (s.control context).Dispatches)
  exclusive : Exclusive s.bkl (fun core => (s.executing core).role) s.log

theorem inv_boot : Inv (boot : Guard p) where
  apart := fun _ _ same => by cases same; rfl
  fits core := .unmasked trivial rfl rfl fun _ => rfl
  suspended context away := by
    cases context with
    | boot core => exact absurd rfl (away core)
    | thread id => exact ⟨trivial, .inl rfl⟩
  exclusive := ⟨⟨[], .new⟩, none, rfl, fun core => by simp [boot, executing, Control.role]⟩

/-- A step of one core that only concerns its own stack, flags and queue. -/
theorem Inv.advance {s s' : Guard p} (inv : Inv s) (core : Fin p.cores) (control : Control p.gates)
    (running : s'.running = s.running)
    (moved : s'.control = Function.update s.control (s.running core) control)
    (others : ∀ other, other ≠ core → s'.enabled other = s.enabled other ∧
      s'.locked other = s.locked other ∧ s'.gatequeue.head other = s.gatequeue.head other)
    (fits : Fits control (s'.enabled core) (s'.locked core) (s'.gatequeue.head core))
    (exclusive : Exclusive s'.bkl
      (Function.update (fun core => (s.executing core).role) core control.role) s'.log) :
    Inv s' := by
  have here : s'.executing core = control := by simp [executing, running, moved]
  have there (other : Fin p.cores) (h : other ≠ core) : s'.executing other = s.executing other := by
    have : s.running other ≠ s.running core := fun same => h (inv.apart same)
    simp [executing, running, moved, this]
  refine ⟨by rw [running]; exact inv.apart, fun other => ?_, fun context away => ?_, ?_⟩
  · by_cases same : other = core
    · subst same; rw [here]; exact fits
    · obtain ⟨enabled, locked, head⟩ := others other same
      rw [there other same, enabled, locked, head]
      exact inv.fits other
  · rw [running] at away
    rw [moved, Function.update_of_ne (Ne.symm (away core))]
    exact inv.suspended context away
  · convert exclusive using 1
    funext other
    by_cases same : other = core
    · subst same; simp [here]
    · simp [same, there other same]

section Calls

variable {s : Guard p} {core : Fin p.cores}

/-- Steps that only touch the core's interrupt flag. -/
theorem Inv.goto (inv : Inv s) (core : Fin p.cores) (enabled : Bool) {control : Control p.gates}
    (fits : Fits control enabled (s.locked core) (s.gatequeue.head core))
    (role : control.role = (s.executing core).role) :
    Inv ((s.setEnabled core enabled).goto core control) := by
  apply inv.advance core control (by rfl) (by rfl)
  · intro other h
    exact ⟨Function.update_of_ne h _ _, rfl, rfl⟩
  · simpa [Guard.goto, setEnabled] using fits
  · exact inv.exclusive.same role

theorem setEnabled_self (s : Guard p) (core : Fin p.cores) :
    s.setEnabled core (s.enabled core) = s := by
  simp [setEnabled]

theorem Inv.move (inv : Inv s) (core : Fin p.cores) {control : Control p.gates}
    (fits : Fits control (s.enabled core) (s.locked core) (s.gatequeue.head core))
    (role : control.role = (s.executing core).role) : Inv (s.goto core control) := by
  have := inv.goto core _ fits role
  rwa [setEnabled_self] at this

theorem restore_eq (s : Guard p) (core : Fin p.cores) (was : Bool) :
    s.restore core was = s.setEnabled core (was || s.enabled core) := by
  cases was
  · simp [restore, setEnabled_self]
  · simp [restore]

/-- How a call of `enter` lies on a stack: alone, or on top of a handler. -/
structure EnterFrame (wrap : EnterPc → Control p.gates) (done : Control p.gates) : Prop where
  sound : ∀ pc, (wrap pc).Sound
  role : ∀ pc, (wrap pc).role = pc.role
  marks : ∀ pc, (wrap pc).marks = pc.marks
  unmasked : ∀ pc, pc.marks = true → (wrap pc).masked = false
  holds : ∀ pc, pc.marks = true → (wrap pc).mayHold = true
  begins : ∀ was, (wrap (.mark was)).mayHold = (wrap .disable).mayHold
  soundDone : done.Sound
  roleDone : done.role = .holding
  marksDone : done.marks = true
  unmaskedDone : done.masked = false
  holdsDone : done.mayHold = true

theorem inv_enter {wrap : EnterPc → Control p.gates} {done : Control p.gates} (inv : Inv s)
    (frame : EnterFrame wrap done) (pc : EnterPc) (here : s.executing core = wrap pc) :
    Inv (s.enter core wrap done pc) := by
  obtain ⟨sound, masked, flag, queue⟩ := here ▸ inv.fits core
  have role : (s.executing core).role = pc.role := by rw [here, frame.role]
  have marked {pc : EnterPc} {enabled : Bool} (marks : pc.marks = true) (set : s.locked core = true) :
      Fits (wrap pc) enabled (s.locked core) (s.gatequeue.head core) :=
    .relaxed (frame.sound pc) (frame.unmasked pc marks) (by rw [frame.marks, marks, set])
      (frame.holds pc marks)
  cases pc with
  | disable =>
    apply inv.goto core false _ (by rw [frame.role, role]; rfl)
    exact ⟨frame.sound _, fun _ => rfl, by rw [flag, frame.marks, frame.marks]; rfl,
      fun h => queue (by rwa [← frame.begins])⟩
  | mark was =>
    apply inv.advance core (wrap (.restore was)) (by rfl) (by rfl)
    · intro other h
      exact ⟨rfl, Function.update_of_ne h _ _, rfl⟩
    · exact ⟨frame.sound _, by simp [frame.unmasked (.restore was) rfl], by
        simp [enter, Guard.goto, setLocked, frame.marks, EnterPc.marks], by
        simp [frame.holds (.restore was) rfl]⟩
    · exact inv.exclusive.same (by rw [frame.role, role]; rfl)
  | restore was =>
    rw [enter, restore_eq]
    exact inv.goto core _ (marked rfl (by rw [flag, frame.marks]; rfl)) (by rw [frame.role, role]; rfl)
  | take =>
    apply inv.advance core (wrap (.spin s.bkl.take.1)) (by rfl) (by rfl) (by intros; exact ⟨rfl, rfl, rfl⟩)
    · exact marked rfl (by rw [flag, frame.marks]; rfl)
    · rw [frame.role]
      exact inv.exclusive.take role
  | spin ticket =>
    rw [enter]
    split
    case isTrue up =>
      apply inv.advance core done (by rfl) (by rfl) (by intros; exact ⟨rfl, rfl, rfl⟩)
      · exact ⟨frame.soundDone, by simp [frame.unmaskedDone], by
          rw [frame.marksDone]; exact flag.trans (by rw [frame.marks]; rfl), by simp [frame.holdsDone]⟩
      · rw [frame.roleDone]
        exact inv.exclusive.acquire (by rw [role, EnterPc.role, up])
    case isFalse => exact inv

/-- How a call of `leave` lies on a stack. -/
structure LeaveFrame (wrap : LeavePc p.gates → Control p.gates) (done : Control p.gates) : Prop where
  sound : ∀ pc, (wrap pc).Sound
  role : ∀ pc, (wrap pc).role = pc.role
  marks : ∀ pc, (wrap pc).marks = pc.marks
  masked : ∀ pc, (wrap pc).masked = pc.masked
  mayHold : ∀ pc, (wrap pc).mayHold = pc.mayHold
  soundDone : done.Sound
  roleDone : done.role = .away
  marksDone : done.marks = false
  unmaskedDone : done.masked = false

namespace LeaveFrame

variable {wrap : LeavePc p.gates → Control p.gates} {done : Control p.gates} {pc : LeavePc p.gates}
  {enabled locked : Bool} {head : Option (Fin p.gates)}

theorem fits (frame : LeaveFrame wrap done) (masked : pc.masked = true → enabled = false)
    (flag : locked = pc.marks) (queue : pc.mayHold = false → head = none) :
    Fits (wrap pc) enabled locked head :=
  ⟨frame.sound pc, by rwa [frame.masked], by rwa [frame.marks], by rwa [frame.mayHold]⟩

theorem holding (frame : LeaveFrame wrap done) (masked : pc.masked = true → enabled = false)
    (flag : locked = pc.marks) (holds : pc.mayHold = true) : Fits (wrap pc) enabled locked head :=
  frame.fits masked flag (by simp [holds])

theorem relaxed (frame : LeaveFrame wrap done) (unmasked : pc.masked = false)
    (flag : locked = pc.marks) (holds : pc.mayHold = true) : Fits (wrap pc) enabled locked head :=
  frame.holding (by simp [unmasked]) flag holds

end LeaveFrame

/-- The queue is empty after a `dequeue`, whether it returned a gate or not. -/
theorem inv_dequeue {wrap : LeavePc p.gates → Control p.gates} {done : Control p.gates} {was : Bool}
    {s' : Guard p} (inv : Inv s) (frame : LeaveFrame wrap done)
    (here : s.executing core = wrap (.dequeue was))
    (eq : s.leave core wrap done (.dequeue was) = some s') : Inv s' := by
  obtain ⟨sound, masked, flag, queue⟩ := here ▸ inv.fits core
  rw [frame.masked] at masked
  rw [frame.marks] at flag
  rcases found : s.gatequeue.dequeue core with ⟨item, gatequeue⟩
  have empty : gatequeue.head core = none := by
    simpa [found] using GateQueue.dequeue_head s.gatequeue core
  have others (other : Fin p.cores) (h : other ≠ core) :
      gatequeue.head other = s.gatequeue.head other := by
    simpa [found] using (GateQueue.untouched_dequeue s.gatequeue h).1
  simp only [leave, found] at eq
  obtain rfl := Option.some.inj eq
  cases item with
  | none =>
    apply inv.advance core (wrap (.clear was)) (by rfl) (by rfl)
      (by intro other h; exact ⟨rfl, rfl, others other h⟩)
    · exact frame.fits (fun _ => masked rfl) flag fun _ => empty
    · exact inv.exclusive.same (by rw [here, frame.role, frame.role]; rfl)
  | some item =>
    apply inv.advance core (wrap (.enable was item)) (by rfl) (by rfl)
      (by intro other h; exact ⟨rfl, rfl, others other h⟩)
    · exact frame.relaxed rfl flag rfl
    · exact inv.exclusive.same (by rw [here, frame.role, frame.role]; rfl)

theorem inv_leave {wrap : LeavePc p.gates → Control p.gates} {done : Control p.gates} {s' : Guard p}
    (inv : Inv s) (frame : LeaveFrame wrap done) (pc : LeavePc p.gates)
    (here : s.executing core = wrap pc) (eq : s.leave core wrap done pc = some s') : Inv s' := by
  obtain ⟨sound, masked, flag, queue⟩ := here ▸ inv.fits core
  have role : (s.executing core).role = pc.role := by rw [here, frame.role]
  rw [frame.masked] at masked
  rw [frame.marks] at flag
  rw [frame.mayHold] at queue
  cases pc with
  | disable =>
    obtain rfl := Option.some.inj eq
    exact inv.goto core false (frame.holding (fun _ => rfl) flag rfl) (by rw [frame.role, role]; rfl)
  | dequeue was => exact inv_dequeue inv frame here eq
  | enable was item =>
    obtain rfl := Option.some.inj eq
    exact inv.goto core true (frame.relaxed rfl flag rfl) (by rw [frame.role, role]; rfl)
  | call was item =>
    obtain rfl := Option.some.inj eq
    apply inv.advance core (wrap (.epilogue was item)) (by rfl) (by rfl) (by intros; exact ⟨rfl, rfl, rfl⟩)
    · exact frame.relaxed rfl flag rfl
    · have epilogue : Exclusive s.bkl _ (s.log ++ [.epilogue core item]) :=
        inv.exclusive.epilogue role item
      exact epilogue.same (by rw [frame.role, role]; rfl)
  | epilogue was item => cases eq
  | again was =>
    obtain rfl := Option.some.inj eq
    exact inv.goto core false (frame.holding (fun _ => rfl) flag rfl) (by rw [frame.role, role]; rfl)
  | clear was =>
    obtain rfl := Option.some.inj eq
    apply inv.advance core (wrap (.unlock was)) (by rfl) (by rfl)
    · intro other h
      exact ⟨rfl, Function.update_of_ne h _ _, rfl⟩
    · exact frame.fits (fun _ => masked rfl) (by simp [Guard.goto, setLocked, LeavePc.marks])
        fun _ => queue rfl
    · exact inv.exclusive.same (by rw [frame.role, role]; rfl)
  | unlock was =>
    obtain rfl := Option.some.inj eq
    apply inv.advance core (wrap (.restore was)) (by rfl) (by rfl) (by intros; exact ⟨rfl, rfl, rfl⟩)
    · exact frame.fits (fun _ => masked rfl) flag fun _ => queue rfl
    · rw [frame.role]
      exact inv.exclusive.release role
  | restore was =>
    obtain rfl := Option.some.inj eq
    rw [restore_eq]
    apply inv.goto core _ _ (by rw [frame.roleDone, role]; rfl)
    exact ⟨frame.soundDone, by simp [frame.unmaskedDone], by rw [frame.marksDone]; exact flag,
      fun _ => queue rfl⟩

theorem enterFrame_handler {below : Control p.gates} (sound : below.Sound)
    (unmasked : below.masked = false) (free : below.role = .away ∧ below.marks = false) :
    EnterFrame (fun pc => .interrupted (.enter pc) below) (.interrupted .entered below) where
  sound _ := ⟨sound, unmasked, trivial, fun _ => free⟩
  role _ := rfl
  marks _ := rfl
  unmasked pc marks := by simp [Control.masked, marks]
  holds _ _ := rfl
  begins _ := rfl
  soundDone := ⟨sound, unmasked, trivial, fun _ => free⟩
  roleDone := rfl
  marksDone := rfl
  unmaskedDone := rfl
  holdsDone := rfl

theorem leaveFrame_handler {below : Control p.gates} (sound : below.Sound)
    (unmasked : below.masked = false) (free : below.role = .away ∧ below.marks = false) :
    LeaveFrame (fun pc => .interrupted (.leave pc) below) (.interrupted .iret below) where
  sound _ := ⟨sound, unmasked, trivial, fun _ => free⟩
  role _ := rfl
  marks _ := rfl
  masked _ := rfl
  mayHold _ := rfl
  soundDone := .nested sound unmasked trivial rfl
  roleDone := free.1
  marksDone := free.2
  unmaskedDone := rfl

section Handler

variable {below : Control p.gates} {s' : Guard p}

/-- A refused gate means that the queue was not empty before either. -/
theorem inv_enqueue {item : Fin p.gates} (inv : Inv s)
    (here : s.executing core = .interrupted (.enqueue item) below)
    (eq : s.relay core below (.enqueue item) = some s') : Inv s' := by
  obtain ⟨⟨sound, unmasked, -, -⟩, masked, flag, queue⟩ := here ▸ inv.fits core
  obtain ⟨⟨accepted, gatequeue⟩, found, rfl⟩ := Option.map_eq_some_iff.mp eq
  have others (other : Fin p.cores) (h : other ≠ core) :
      gatequeue.head other = s.gatequeue.head other := (GateQueue.untouched_enqueue found h).1
  apply inv.advance core (.interrupted (if accepted then .disable else .iret) below)
    (by rfl) (by rfl) (by intro other h; exact ⟨rfl, rfl, others other h⟩)
  · cases accepted with
    | true => exact .holding (.nested sound unmasked trivial rfl) (fun _ => masked rfl) flag rfl
    | false =>
      refine .unmasked (.nested sound unmasked trivial rfl) rfl flag fun empty => ?_
      -- An empty queue accepts every gate.
      have none := queue empty
      simp [GateQueue.enqueue, none] at found
  · apply inv.exclusive.same
    rw [here]
    cases accepted <;> rfl

/-- The handler only adds to a queue that a `leave` below it will empty, or else it
finds the critical section free. -/
theorem inv_test {was : Bool} (inv : Inv s) (here : s.executing core = .interrupted (.test was) below)
    (eq : s.relay core below (.test was) = some s') : Inv s' := by
  obtain ⟨⟨sound, unmasked, off, -⟩, masked, flag, queue⟩ := here ▸ inv.fits core
  obtain rfl := Option.some.inj eq
  cases locked : s.locked core with
  | true =>
    have marks : below.marks = true := by rw [← locked, flag]; rfl
    have holds : below.mayHold = true := below.marked sound unmasked marks
    exact inv.move core (.relaxed (.nested sound unmasked trivial rfl) rfl flag holds) (by rw [here]; rfl)
  | false =>
    have marks : below.marks = false := by rw [← locked, flag]; rfl
    obtain ⟨away, -⟩ := below.unmarked sound unmasked marks
    refine inv.move core (.holding ⟨sound, unmasked, off, fun _ => ⟨away, marks⟩⟩
      (fun _ => masked rfl) locked rfl) ?_
    rw [here]
    exact away.symm

theorem inv_relay (inv : Inv s) (pc : RelayPc p.gates) (here : s.executing core = .interrupted pc below)
    (eq : s.relay core below pc = some s') : Inv s' := by
  obtain ⟨⟨sound, unmasked, off, free⟩, masked, flag, queue⟩ := here ▸ inv.fits core
  have role : (s.executing core).role = (Control.interrupted pc below).role := by rw [here]
  cases pc with
  | prologue item =>
    obtain rfl := Option.some.inj eq
    exact inv.move core ⟨.nested sound unmasked trivial rfl, fun _ => masked rfl, flag, queue⟩ role.symm
  | enqueue item => exact inv_enqueue inv here eq
  | disable =>
    obtain rfl := Option.some.inj eq
    exact inv.goto core false
      (.holding (.nested sound unmasked (masked rfl) rfl) (fun _ => rfl) flag rfl) role.symm
  | test was => exact inv_test inv here eq
  | restoreEnter was =>
    obtain rfl := Option.some.inj eq
    obtain rfl : was = false := off
    rw [restore_eq]
    exact inv.goto core _ (.holding ⟨sound, unmasked, trivial, fun _ => free rfl⟩
      (fun _ => masked rfl) flag rfl) role.symm
  | enter pc =>
    obtain rfl := Option.some.inj eq
    exact inv_enter inv (enterFrame_handler sound unmasked (free rfl)) pc here
  | entered =>
    obtain rfl := Option.some.inj eq
    exact inv.goto core false
      (.relaxed ⟨sound, unmasked, trivial, fun _ => free rfl⟩ rfl flag rfl) role.symm
  | leave pc => exact inv_leave inv (leaveFrame_handler sound unmasked (free rfl)) pc here eq
  | restore was =>
    obtain rfl := Option.some.inj eq
    rw [restore_eq]
    exact inv.goto core _ (.unmasked (.nested sound unmasked trivial rfl) rfl flag queue) role.symm
  | iret =>
    obtain rfl := Option.some.inj eq
    exact inv.goto core true (.unmasked sound unmasked flag queue) role.symm

end Handler

theorem enterFrame_thread : EnterFrame (.entering : EnterPc → Control p.gates) .critical where
  sound _ := trivial
  role _ := rfl
  marks _ := rfl
  unmasked _ _ := rfl
  holds _ marks := marks
  begins _ := rfl
  soundDone := trivial
  roleDone := rfl
  marksDone := rfl
  unmaskedDone := rfl
  holdsDone := rfl

theorem leaveFrame_thread : LeaveFrame (.leaving : LeavePc p.gates → Control p.gates) .user where
  sound _ := trivial
  role _ := rfl
  marks _ := rfl
  masked _ := rfl
  mayHold _ := rfl
  soundDone := trivial
  roleDone := rfl
  marksDone := rfl
  unmaskedDone := rfl

/-- Finishing an epilogue leaves everything but its own position as it was. -/
theorem finish_spec {control after : Control p.gates} (eq : control.finish = some after)
    (sound : control.Sound) : after.Sound ∧ after.role = .holding ∧ after.marks = true ∧
      after.mayHold = true ∧ after.masked = false := by
  unfold Control.finish at eq
  split at eq
  · cases eq; exact ⟨trivial, rfl, rfl, rfl, rfl⟩
  · cases eq
    obtain ⟨sound, unmasked, _, free⟩ := sound
    exact ⟨⟨sound, unmasked, trivial, fun _ => free rfl⟩, rfl, rfl, rfl, rfl⟩
  · cases eq

theorem inv_proceed {s' : Guard p} (inv : Inv s) (eq : s.proceed core = some s') : Inv s' := by
  obtain ⟨sound, masked, flag, queue⟩ := inv.fits core
  rw [proceed] at eq
  cases here : s.executing core with
  | user | critical => simp [here] at eq
  | kickoff =>
    simp only [here] at eq sound masked flag queue
    obtain rfl := Option.some.inj eq
    exact inv.move core (.relaxed trivial rfl flag rfl) (by rw [here]; rfl)
  | entering pc =>
    simp only [here] at eq
    obtain rfl := Option.some.inj eq
    exact inv_enter inv enterFrame_thread pc here
  | leaving pc =>
    simp only [here] at eq
    exact inv_leave inv leaveFrame_thread pc here eq
  | interrupted pc below =>
    simp only [here] at eq
    exact inv_relay inv pc here eq

theorem inv_dispatch (inv : Inv s) {next : Context p} (dispatches : (s.executing core).Dispatches)
    (idle : ∀ other, s.running other ≠ next) :
    Inv { s with running := Function.update s.running core next } := by
  have was := Control.inside (.inr dispatches)
  obtain ⟨soundNext, insideNext⟩ := inv.suspended next idle
  have becomes := Control.inside insideNext
  have there (other : Fin p.cores) (h : other ≠ core) :
      executing { s with running := Function.update s.running core next } other =
        s.executing other := by
    simp [executing, h]
  have here : executing { s with running := Function.update s.running core next } core =
      s.control next := by
    simp [executing]
  refine ⟨fun first second same => ?_, fun other => ?_, fun context away => ?_, ?_⟩
  · by_cases h : first = core <;> by_cases h' : second = core
    · rw [h, h']
    · subst h
      exact absurd (by simpa [h'] using same.symm) (idle second)
    · subst h'
      exact absurd (by simpa [h] using same) (idle first)
    · exact inv.apart (by simpa [h, h'] using same)
  · by_cases same : other = core
    · subst same
      rw [here]
      have flag := (inv.fits other).flag
      exact ⟨soundNext, by simp [becomes.2.2.2], by rw [becomes.2.1, ← was.2.1]; exact flag,
        by simp [becomes.2.2.1]⟩
    · rw [there other same]
      exact inv.fits other
  · by_cases left : context = s.running core
    · subst left
      exact ⟨(inv.fits core).sound, .inr dispatches⟩
    · refine inv.suspended context fun other runs => ?_
      by_cases same : other = core
      · subst same; exact left runs.symm
      · exact away other (by simpa [same] using runs)
  · convert inv.exclusive using 1
    funext other
    by_cases same : other = core
    · subst same; rw [here, becomes.1, was.1]
    · rw [there other same]

theorem inv_step {s' : Guard p} {action : Action p} (inv : Inv s) (eq : s.step action = some s') :
    Inv s' := by
  cases action with
  | proceed core => exact inv_proceed inv eq
  | enter core =>
    obtain ⟨here, ⟨⟩⟩ := Option.ite_none_right_eq_some.mp eq
    obtain ⟨_, _, flag, queue⟩ := here ▸ inv.fits core
    exact inv.move core (.unmasked trivial rfl flag queue) (by rw [here]; rfl)
  | leave core =>
    obtain ⟨here, ⟨⟩⟩ := Option.ite_none_right_eq_some.mp eq
    obtain ⟨_, _, flag, queue⟩ := here ▸ inv.fits core
    exact inv.move core (.unmasked trivial rfl flag queue) (by rw [here]; rfl)
  | finish core =>
    obtain ⟨after, found, rfl⟩ := Option.map_eq_some_iff.mp eq
    have was := Control.inside (.inr (.inr (Option.isSome_of_mem found)))
    obtain ⟨sound, role, marks, holds, unmasked⟩ := finish_spec found (inv.fits core).sound
    refine inv.move core (.relaxed sound unmasked ?_ holds) (role.trans was.1.symm)
    rw [marks, (inv.fits core).flag, was.2.1]
  | decline core =>
    simp only [step] at eq
    split at eq
    case h_1 item below here =>
      obtain rfl := Option.some.inj eq
      obtain ⟨⟨sound, unmasked, _⟩, _, flag, queue⟩ := here ▸ inv.fits core
      exact inv.move core (.unmasked (.nested sound unmasked trivial rfl) rfl flag queue) (by rw [here]; rfl)
    case h_2 => cases eq
  | setEnabled core value =>
    obtain ⟨outside, ⟨⟩⟩ := Option.ite_none_right_eq_some.mp eq
    have unmasked : (s.executing core).masked = false := by
      rcases outside with here | dispatches
      · rw [here]; rfl
      · exact (Control.inside (.inr dispatches)).2.2.2
    have same : (s.setEnabled core value).goto core (s.executing core) = s.setEnabled core value := by
      simp [Guard.goto, setEnabled, executing]
    obtain ⟨sound, _, flag, queue⟩ := inv.fits core
    rw [← same]
    exact inv.goto core value (.unmasked sound unmasked flag queue) rfl
  | dispatch core next =>
    obtain ⟨⟨dispatches, idle⟩, ⟨⟩⟩ := Option.ite_none_right_eq_some.mp eq
    exact inv_dispatch inv dispatches idle
  | interrupt core item =>
    obtain ⟨enabled, ⟨⟩⟩ := Option.ite_none_right_eq_some.mp eq
    obtain ⟨sound, masked, flag, queue⟩ := inv.fits core
    have unmasked : (s.executing core).masked = false := by
      cases h : (s.executing core).masked with
      | false => rfl
      | true => rw [masked h] at enabled; cases enabled
    exact inv.goto core false ⟨.nested sound unmasked trivial rfl, fun _ => rfl, flag, queue⟩ rfl

theorem inv_run {actions : List (Action p)} {final : Guard p}
    (run : Run.exec step boot actions = some final) : Inv final :=
  Run.invariant Inv (fun _ _ _ inv eq => inv_step inv eq) run inv_boot

end Calls

/-- An epilogue is under way, perhaps interrupted at the moment. -/
def RunsEpilogue : Control p.gates → Prop
  | .leaving (.epilogue ..) => True
  | .interrupted (.leave (.epilogue ..)) _ => True
  | .interrupted _ below => RunsEpilogue below
  | _ => False

theorem holding_of_epilogue {control : Control p.gates} (sound : control.Sound)
    (runs : RunsEpilogue control) : control.role = .holding := by
  induction control with
  | user | critical | kickoff | entering => cases runs
  | leaving pc =>
    cases pc <;> first | rfl | cases runs
  | interrupted pc below ih =>
    obtain ⟨sound, _, _, free⟩ := sound
    have busy (runs : RunsEpilogue below) : below.role ≠ .away := by simp [ih sound runs]
    cases pc with
    | prologue | enqueue | disable | test | restore | iret => exact ih sound runs
    | restoreEnter | enter | entered => exact absurd (free rfl).1 (busy runs)
    | leave pc =>
      cases pc with
      | epilogue => rfl
      | _ => exact absurd (free rfl).1 (busy runs)

/-- In every reachable state the history of entries, epilogues and unlocks is one in
which at most one core is inside, and only that core runs epilogues and unlocks; the
cores whose stacks are inside are exactly its owner; and only the owner is in the
middle of an epilogue. -/
theorem critical_section_exclusive (p : Platform) (actions : List (Action p)) (final : Guard p)
    (run : Run.exec step boot actions = some final) :
    ∃ holder, owner final.log = some holder ∧
      (∀ core, (final.executing core).role = .holding ↔ holder = some core) ∧
      ∀ core, RunsEpilogue (final.executing core) → holder = some core := by
  have inv := inv_run run
  obtain ⟨_, holder, found, agrees⟩ := inv.exclusive
  refine ⟨holder, found, agrees, fun core runs => (agrees core).mp ?_⟩
  exact holding_of_epilogue (inv.fits core).sound runs

/-- While core 1 waits for the lock, core 0 switches to a new thread inside the critical
section; the thread unlocks, and core 1 gets in. -/
theorem critical_section_exclusive_handover :
    ∃ final : Guard ⟨2, 1, 1, by decide⟩, Run.exec step boot
      ([.enter 0] ++ List.replicate 5 (.proceed 0) ++ [.enter 1] ++ List.replicate 5 (.proceed 1) ++
        [.dispatch 0 (.thread 0)] ++ List.replicate 6 (.proceed 0) ++ [.proceed 1]) = some final ∧
      final.log = [.entered 0, .unlocked 0, .entered 1] ∧
      ∀ core, (final.executing core).role = .holding ↔ core = 1 := by
  have ends : (Run.exec step (boot : Guard ⟨2, 1, 1, by decide⟩)
      ([.enter 0] ++ List.replicate 5 (.proceed 0) ++ [.enter 1] ++ List.replicate 5 (.proceed 1) ++
        [.dispatch 0 (.thread 0)] ++ List.replicate 6 (.proceed 0) ++ [.proceed 1])).map Guard.log =
      some [.entered 0, .unlocked 0, .entered 1] := by decide +kernel
  obtain ⟨final, run, log⟩ := Option.map_eq_some_iff.mp ends
  obtain ⟨holder, found, agrees, _⟩ := critical_section_exclusive _ _ final run
  rw [log] at found
  obtain rfl : some 1 = holder := Option.some.inj found
  exact ⟨final, run, log, fun core => (agrees core).trans (by simp [eq_comm])⟩

/-- In every reachable state, a core with interrupts on and its flag clear has an empty
queue: no gate waits for the next interrupt or the next `leave`. -/
theorem no_gate_stranded (p : Platform) (actions : List (Action p)) (final : Guard p)
    (run : Run.exec step boot actions = some final) (core : Fin p.cores)
    (enabled : final.enabled core = true) (unlocked : final.locked core = false) :
    final.gatequeue.head core = none := by
  obtain ⟨sound, masked, flag, queue⟩ := (inv_run run).fits core
  have unmasked : (final.executing core).masked = false := by
    cases h : (final.executing core).masked with
    | false => rfl
    | true => rw [masked h] at enabled; cases enabled
  exact queue (Control.unmarked sound unmasked (flag.symm.trans unlocked)).2

/-- The interrupt of a gate whose epilogue the relay runs at once. -/
theorem no_gate_stranded_interrupt :
    ∃ final : Guard ⟨1, 0, 1, by decide⟩, Run.exec step boot
      ([.setEnabled 0 true, .interrupt 0 0] ++ List.replicate 15 (.proceed 0) ++ [.finish 0] ++
        List.replicate 6 (.proceed 0)) = some final ∧
      final.log = [.entered 0, .epilogue 0 0, .unlocked 0] ∧ final.gatequeue.head 0 = none := by
  have ends : (Run.exec step (boot : Guard ⟨1, 0, 1, by decide⟩)
      ([.setEnabled 0 true, .interrupt 0 0] ++ List.replicate 15 (.proceed 0) ++ [.finish 0] ++
        List.replicate 6 (.proceed 0))).map (fun s => (s.log, s.enabled 0, s.locked 0)) =
      some ([.entered 0, .epilogue 0 0, .unlocked 0], true, false) := by decide +kernel
  obtain ⟨final, run, same⟩ := Option.map_eq_some_iff.mp ends
  obtain ⟨log, enabled, locked⟩ : _ ∧ _ ∧ _ := by simpa using same
  exact ⟨final, run, log, no_gate_stranded _ _ final run 0 enabled locked⟩

end MPStuBS.Guard
