import MPStuBS.Queue
import Mathlib.Algebra.Group.Nat.Defs

/-! `sync/bellringer.cc`: the bells that wait for their time, in a queue whose
entries count down from the bell before them. Counters are `unsigned int`. -/
namespace MPStuBS

structure Bellringer (bells : Nat) where
  links : Links (Fin bells)
  ms : Fin bells → Nat
  queue : Queue (Fin bells)

namespace Bellringer

variable {bells : Nat}

/-- `a - b` on 32-bit unsigned operands. -/
def minus (a b : Nat) : Nat := (a + 2 ^ 32 - b) % 2 ^ 32

theorem minus_of_le {a b : Nat} (le : b ≤ a) (bound : a < 2 ^ 32) : minus a b = a - b := by
  unfold minus; omega

def new : Bellringer bells := ⟨fun _ => none, fun _ => 0, .new⟩

/-- `Bell bell{ms}`: a bell object comes into being at this address. -/
def construct (s : Bellringer bells) (bell : Fin bells) (ms : Nat) : Bellringer bells :=
  { s with
    links := Function.update s.links bell none
    ms := Function.update s.ms bell ms }

/-- The loop of `check`: it takes the first bell as long as its counter is zero and
yields the bells it rang. Ringing touches neither the queue nor a counter. -/
def ringDue (s : Bellringer bells) : Nat → Option (Bellringer bells × List (Fin bells))
  | 0 => none
  | fuel + 1 =>
    match s.queue.first with
    | none => some (s, [])
    | some bell =>
      if s.ms bell = 0 then
        let (_, queue, links) := s.queue.dequeue s.links
        (ringDue { s with queue := queue, links := links } fuel).map fun (s, rung) => (s, bell :: rung)
      else some (s, [])

def check (s : Bellringer bells) : Option (Bellringer bells × List (Fin bells)) :=
  match s.queue.first with
  | none => some (s, [])
  | some bell => ringDue { s with ms := Function.update s.ms bell (minus (s.ms bell) 1) } (bells + 1)

/-- The loop of `job`. A bell due after all queued ones falls off its end, and the
bell that is inserted keeps the `ms` it came with. -/
def jobFrom (s : Bellringer bells) (bell : Fin bells) :
    Nat → Nat → Fin bells → Option (Fin bells) → Option (Bellringer bells)
  | 0, _, _, _ => none
  | _ + 1, _, _, none => some s
  | fuel + 1, ms, before, some current =>
    if s.ms current < ms then
      jobFrom s bell fuel (minus ms (s.ms current)) current (s.links current)
    else
      let (queue, links) := s.queue.insertAfter s.links before bell
      some ⟨links, Function.update s.ms current (minus (s.ms current) ms), queue⟩

def job (s : Bellringer bells) (bell : Fin bells) (ms : Nat) : Option (Bellringer bells) :=
  match s.queue.first with
  | none =>
    let (queue, links) := s.queue.insertFirst s.links bell
    some { s with queue := queue, links := links }
  | some first =>
    if ms < s.ms first then
      let (queue, links) := s.queue.insertFirst s.links bell
      some ⟨links, Function.update s.ms first (minus (s.ms first) ms), queue⟩
    else jobFrom s bell (bells + 1) ms first (some first)

/-- The search loop of `cancel`, which does not move its iterator. -/
def cancelFrom (bell : Fin bells) : Nat → Option (Fin bells) → Option (Option (Fin bells))
  | 0, _ => none
  | _ + 1, none => some none
  | fuel + 1, some current => if current = bell then some (some current) else cancelFrom bell fuel (some current)

/-- The fuel bounds the search and the one in `remove`. -/
def cancel (fuel : Nat) (s : Bellringer bells) (bell : Fin bells) : Option (Bellringer bells) :=
  match cancelFrom bell fuel s.queue.head with
  | none => none
  | some none => some s
  | some (some current) =>
    match s.links current with
    | none => some s
    | some next =>
      let ms := Function.update s.ms next ((s.ms next + s.ms bell) % 2 ^ 32)
      (s.queue.remove fuel s.links bell).map fun (_, queue, links) => ⟨links, ms, queue⟩

/-- The bells in the queue. -/
def queued (s : Bellringer bells) : List (Fin bells) := Chain.walk s.links bells s.queue.head

theorem queued_eq {s : Bellringer bells} {nodes} (rep : Queue.Rep s.links s.queue nodes) :
    s.queued = nodes := by
  simpa [queued] using rep.chain.walk_card

theorem job_empty {s : Bellringer bells} (empty : s.queue.first = none) (bell : Fin bells) (ms : Nat) :
    s.job bell ms = some { s with
      queue := (s.queue.insertFirst s.links bell).1
      links := (s.queue.insertFirst s.links bell).2 } := by
  simp [job, empty]

theorem job_earliest {s : Bellringer bells} {first : Fin bells} {ms : Nat}
    (head : s.queue.first = some first) (earliest : ms < s.ms first) (bell : Fin bells) :
    s.job bell ms = some ⟨(s.queue.insertFirst s.links bell).2,
      Function.update s.ms first (minus (s.ms first) ms), (s.queue.insertFirst s.links bell).1⟩ := by
  simp [job, head, earliest]

end Bellringer
end MPStuBS
