import MPStuBS.Bellringer
import MPStuBS.Run

/-! When bells ring. `Alarm` is what a bellringer is for, the number of checks each
bell still waits; the delta queue refines it as long as every new bell is due before
all queued ones. -/
namespace MPStuBS.Bellringer

variable {bells : Nat}

inductive Call (bells : Nat) where
  | job (bell : Fin bells) (ms : Nat)
  | check
  deriving DecidableEq, Repr

inductive Event (bells : Nat) where
  | jobbed (bell : Fin bells) (ms : Nat)
  | checked (rung : List (Fin bells))
  deriving DecidableEq, Repr

structure Session (bells : Nat) where
  ringer : Bellringer bells
  log : List (Event bells)

namespace Session

def start : Session bells := ⟨new, []⟩

/-- What `Bell::sleep` grants about its call of `job`: the bell is new and its time
is positive. -/
def Granted (s : Session bells) (bell : Fin bells) (ms : Nat) : Prop :=
  bell ∉ s.ringer.queued ∧ 0 < ms ∧ ms < 2 ^ 32

instance (s : Session bells) (bell ms) : Decidable (s.Granted bell ms) :=
  inferInstanceAs (Decidable (_ ∧ _ ∧ _))

def step (s : Session bells) : Call bells → Option (Session bells)
  | .job bell ms =>
    if s.Granted bell ms then
      ((s.ringer.construct bell ms).job bell ms).map fun ringer =>
        ⟨ringer, s.log ++ [.jobbed bell ms]⟩
    else none
  | .check => s.ringer.check.map fun (ringer, rung) => ⟨ringer, s.log ++ [.checked rung]⟩

end Session

/-- The number of checks after which each pending bell rings. -/
abbrev Alarm (bells : Nat) := Fin bells → Option Nat

def Alarm.tick (a : Alarm bells) : Alarm bells := fun bell =>
  match a bell with
  | some (left + 2) => some (left + 1)
  | _ => none

def Alarm.next (a : Alarm bells) : Event bells → Alarm bells
  | .jobbed bell ms => Function.update a bell (some ms)
  | .checked _ => a.tick

def alarm (log : List (Event bells)) : Alarm bells := log.foldl Alarm.next fun _ => none

@[simp] theorem alarm_snoc (log : List (Event bells)) (event) :
    alarm (log ++ [event]) = (alarm log).next event := by simp [alarm]

/-- The waiting time the counters express: a bell waits for those before it, too. -/
def remaining (ms : Fin bells → Nat) : List (Fin bells) → Alarm bells
  | [], _ => none
  | node :: rest, bell => if bell = node then some (ms node)
    else (remaining ms rest bell).map (· + ms node)

theorem remaining_congr {ms other : Fin bells → Nat} {nodes : List (Fin bells)}
    (same : ∀ node ∈ nodes, other node = ms node) : remaining other nodes = remaining ms nodes := by
  induction nodes with
  | nil => rfl
  | cons node rest ih =>
    funext bell
    simp only [remaining, same node List.mem_cons_self,
      ih fun x member => same x (List.mem_cons_of_mem _ member)]

theorem remaining_none {ms : Fin bells → Nat} {nodes : List (Fin bells)} {bell : Fin bells}
    (absent : bell ∉ nodes) : remaining ms nodes bell = none := by
  induction nodes with
  | nil => rfl
  | cons node rest ih =>
    obtain ⟨distinct, absent⟩ := not_or.mp (mt List.mem_cons.mpr absent)
    simp [remaining, distinct, ih absent]

theorem remaining_pos {ms : Fin bells → Nat} {nodes : List (Fin bells)} {bell : Fin bells} {left : Nat}
    (positive : ∀ node ∈ nodes, 0 < ms node) (h : remaining ms nodes bell = some left) : 0 < left := by
  induction nodes generalizing left with
  | nil => cases h
  | cons node rest ih =>
    have first := positive node List.mem_cons_self
    simp only [remaining] at h
    split at h
    · cases h; exact first
    · obtain ⟨earlier, _, rfl⟩ := Option.map_eq_some_iff.mp h
      omega

/-- A delta queue with positive counters that expresses the waiting times `a`. -/
structure Shows (s : Bellringer bells) (nodes : List (Fin bells)) (a : Alarm bells) : Prop where
  rep : Queue.Rep s.links s.queue nodes
  positive : ∀ node ∈ nodes, 0 < s.ms node
  bounded : ∀ node ∈ nodes, s.ms node < 2 ^ 32
  exact : remaining s.ms nodes = a

/-- The new bell is due before every queued one. -/
def Earliest (s : Session bells) : Call bells → Prop
  | .job _ ms => ∀ first, s.ringer.queue.first = some first → ms < s.ringer.ms first
  | .check => True

instance (s : Session bells) : ∀ call, Decidable (Earliest s call)
  | .job _ ms => inferInstanceAs (Decidable
      (∀ first, s.ringer.queue.first = some first → ms < s.ringer.ms first))
  | .check => inferInstanceAs (Decidable True)

theorem shows_new : Shows (new : Bellringer bells) [] (fun _ => none) :=
  ⟨Queue.rep_new _, by simp, by simp, rfl⟩

/-- Setting one counter of a queue to a value that has the property of all others. -/
theorem each_update {P : Nat → Prop} {ms : Fin bells → Nat} {nodes : List (Fin bells)}
    {bell : Fin bells} {time : Nat} (here : P time)
    (each : ∀ node ∈ nodes, node ≠ bell → P (ms node)) :
    ∀ node ∈ nodes, P (Function.update ms bell time node) := by
  intro node member
  by_cases same : node = bell
  · subst same; simpa using here
  · simpa [same] using each node member same

/-- Putting a bell in front and taking its time off the next one leaves the waiting times
of the others as they were. -/
theorem remaining_insert {ms : Fin bells → Nat} {bell first : Fin bells} {rest : List (Fin bells)}
    {time : Nat} (fresh : bell ∉ first :: rest) (apart : first ∉ rest) (later : time < ms first) :
    remaining (Function.update (Function.update ms bell time) first (ms first - time))
      (bell :: first :: rest) = Function.update (remaining ms (first :: rest)) bell (some time) := by
  have distinct : first ≠ bell := fun eq => fresh (by simp [eq])
  have same : remaining (Function.update (Function.update ms bell time) first (ms first - time)) rest
      = remaining ms rest := by
    refine remaining_congr fun x member => ?_
    have notFirst : x ≠ first := by rintro rfl; exact apart member
    have notBell : x ≠ bell := by rintro rfl; exact fresh (List.mem_cons_of_mem _ member)
    simp [notFirst, notBell]
  funext x
  by_cases isBell : x = bell
  · subst isBell; simp [remaining, Ne.symm distinct]
  · by_cases isFirst : x = first
    · subst isFirst
      simp [remaining, isBell, Ne.symm isBell]
      omega
    · simp only [remaining, isBell, isFirst, if_false, same, Function.update_self,
        Function.update_of_ne (Ne.symm distinct), Function.update_of_ne isBell, Option.map_map]
      congr 1
      funext left
      simp only [Function.comp_apply]
      omega

/-- A bell due before all others becomes the head; the old head waits the difference. -/
theorem shows_job {s : Bellringer bells} {nodes a} {bell : Fin bells} {ms : Nat} (delta : Shows s nodes a)
    (fresh : bell ∉ nodes) (positive : 0 < ms) (bounded : ms < 2 ^ 32)
    (earliest : ∀ first, s.queue.first = some first → ms < s.ms first) :
    ∃ after, (s.construct bell ms).job bell ms = some after ∧
      Shows after (bell :: nodes) (Function.update a bell (some ms)) := by
  have rep : Queue.Rep (s.construct bell ms).links s.queue nodes :=
    delta.rep.frame fun x member => Function.update_of_ne (fun eq => fresh (by rw [← eq]; exact member)) _ _
  have inserted := Queue.insertFirst_rep rep fresh
  have headed := delta.rep.head_eq
  cases nodes with
  | nil =>
    have empty : (s.construct bell ms).queue.first = none := headed
    refine ⟨_, job_empty empty bell ms, inserted, ?_, ?_, ?_⟩
    · simpa [construct] using positive
    · simpa [construct] using bounded
    · rw [← delta.exact]
      funext x
      by_cases same : x = bell
      · subst same; simp [remaining, construct]
      · simp [remaining, same]
  | cons first rest =>
    have head : (s.construct bell ms).queue.first = some first := headed
    have distinct : first ≠ bell := fun eq => fresh (by simp [eq])
    have later := earliest first head
    have small := delta.bounded first List.mem_cons_self
    have ahead : (s.construct bell ms).ms first = s.ms first := by simp [construct, distinct]
    refine ⟨⟨_, Function.update (Function.update s.ms bell ms) first (s.ms first - ms), _⟩, ?_,
      inserted, ?_, ?_, ?_⟩
    · rw [job_earliest head (by rw [ahead]; exact later), ahead, minus_of_le (Nat.le_of_lt later) small]
      rfl
    · have set : ∀ x ∈ bell :: first :: rest, 0 < Function.update s.ms bell ms x :=
        each_update positive fun x member other => delta.positive x (by simpa [other] using member)
      exact each_update (by omega) fun x member _ => set x member
    · have set : ∀ x ∈ bell :: first :: rest, Function.update s.ms bell ms x < 2 ^ 32 :=
        each_update (P := (· < 2 ^ 32)) bounded fun x member other =>
          delta.bounded x (by simpa [other] using member)
      exact each_update (P := (· < 2 ^ 32)) (by omega) fun x member _ => set x member
    · rw [← delta.exact]
      exact remaining_insert fresh (List.nodup_cons.mp delta.rep.nodup).1 later

theorem ringDue_later {s : Bellringer bells} {fuel : Nat} (enough : 0 < fuel)
    (later : ∀ first, s.queue.first = some first → s.ms first ≠ 0) :
    s.ringDue fuel = some (s, []) := by
  obtain ⟨fuel, rfl⟩ : ∃ k, fuel = k + 1 := ⟨fuel - 1, by omega⟩
  cases head : s.queue.first with
  | none => simp [ringDue, head]
  | some first => simp [ringDue, head, later first head]

/-- After a tick the first bell waits one check less and the others wait as long
behind it as before. -/
theorem tick_remaining {ms : Fin bells → Nat} {first : Fin bells} {rest : List (Fin bells)}
    (positive : ∀ node ∈ first :: rest, 0 < ms node) (apart : first ∉ rest) :
    (remaining ms (first :: rest)).tick = if ms first = 1 then remaining ms rest
      else remaining (Function.update ms first (ms first - 1)) (first :: rest) := by
  have now := positive first List.mem_cons_self
  have same : remaining (Function.update ms first (ms first - 1)) rest = remaining ms rest :=
    remaining_congr fun x member => Function.update_of_ne (fun eq => apart (by rw [← eq]; exact member)) _ _
  funext bell
  by_cases isFirst : bell = first
  · subst isFirst
    by_cases due : ms bell = 1
    · simp [Alarm.tick, remaining, due, remaining_none apart]
    · obtain ⟨left, eq⟩ : ∃ left, ms bell = left + 2 := ⟨ms bell - 2, by omega⟩
      simp [Alarm.tick, remaining, eq]
  · cases behind : remaining ms rest bell with
    | none => simp [Alarm.tick, remaining, isFirst, behind]; split <;> simp [isFirst, same, behind]
    | some left =>
      have waits := remaining_pos (fun x member => positive x (List.mem_cons_of_mem _ member)) behind
      obtain ⟨total, eq⟩ : ∃ total, left + ms first = total + 2 := ⟨left + ms first - 2, by omega⟩
      simp only [Alarm.tick, remaining, isFirst, if_false, behind, Option.map_some, eq]
      split
      · next due => rw [behind]; congr 1; omega
      · simp [isFirst, same, behind]; omega

section Check

variable {s : Bellringer bells} {first : Fin bells} {rest : List (Fin bells)} {a : Alarm bells}

/-- Nothing but the first bell can be due at the next check. -/
theorem due_iff (delta : Shows s (first :: rest) a) (bell : Fin bells) :
    a bell = some 1 ↔ bell = first ∧ s.ms first = 1 := by
  rw [← delta.exact]
  by_cases isFirst : bell = first
  · subst isFirst; simp [remaining]
  · have now := delta.positive first List.mem_cons_self
    simp only [remaining, isFirst, if_false, false_and, iff_false]
    intro eq
    obtain ⟨left, behind, total⟩ := Option.map_eq_some_iff.mp eq
    have := remaining_pos (fun x member => delta.positive x (List.mem_cons_of_mem _ member)) behind
    omega

/-- The first bell is due: it leaves the queue, and the next one has still to wait. -/
theorem check_due (delta : Shows s (first :: rest) a) (due : s.ms first = 1) :
    ∃ after, s.check = some (after, [first]) ∧ Shows after rest a.tick := by
  have head : s.queue.first = some first := delta.rep.head_eq
  have apart := (List.nodup_cons.mp delta.rep.nodup).1
  have distinct : ∀ x ∈ rest, x ≠ first := fun x member eq => apart (by rw [← eq]; exact member)
  have ticked := tick_remaining delta.positive apart
  rw [delta.exact, if_pos due] at ticked
  obtain ⟨queue, dequeued, rep⟩ := Queue.dequeue_cons delta.rep
  refine ⟨⟨Function.update s.links first none, Function.update s.ms first 0, queue⟩, ?_, rep, ?_, ?_, ?_⟩
  · have zero : Function.update s.ms first (s.ms first - 1) first = 0 := by simp [due]
    have least : minus (s.ms first) 1 = s.ms first - 1 := minus_of_le (by omega) (by omega)
    simp only [check, head, least]
    rw [ringDue]
    simp only [head, zero, if_true, dequeued]
    rw [ringDue_later (Nat.zero_lt_of_lt first.isLt)]
    · simp [due]
    · intro next nextHead
      have inRest : next ∈ rest := List.mem_of_mem_head? (rep.head_eq.symm.trans nextHead)
      have := delta.positive next (List.mem_cons_of_mem _ inRest)
      simp [distinct next inRest]
      omega
  · intro x member
    simpa [distinct x member] using delta.positive x (List.mem_cons_of_mem _ member)
  · intro x member
    simpa [distinct x member] using delta.bounded x (List.mem_cons_of_mem _ member)
  · rw [ticked]
    exact remaining_congr fun x member => by simp [distinct x member]

/-- The first bell is not due: only its counter changes. -/
theorem check_waits (delta : Shows s (first :: rest) a) (waits : s.ms first ≠ 1) :
    ∃ after, s.check = some (after, []) ∧ Shows after (first :: rest) a.tick := by
  have head : s.queue.first = some first := delta.rep.head_eq
  have now := delta.positive first List.mem_cons_self
  have small := delta.bounded first List.mem_cons_self
  have ticked := tick_remaining delta.positive (List.nodup_cons.mp delta.rep.nodup).1
  rw [delta.exact, if_neg waits] at ticked
  simp only [check, head, minus_of_le now small]
  refine ⟨_, ringDue_later (Nat.succ_pos _) ?_, delta.rep, ?_, ?_, ticked.symm⟩
  · intro next nextHead
    obtain rfl := Option.some.inj (head.symm.trans nextHead)
    simp
    omega
  · exact each_update (by omega) fun x member _ => delta.positive x member
  · exact each_update (P := (· < 2 ^ 32)) (by omega) fun x member _ => delta.bounded x member

/-- A check rings exactly the bells whose time has come. -/
theorem shows_check {nodes : List (Fin bells)} (delta : Shows s nodes a) :
    ∃ after rung rest, s.check = some (after, rung) ∧ Shows after rest a.tick ∧ rung.Nodup ∧
      ∀ bell, bell ∈ rung ↔ a bell = some 1 := by
  cases nodes with
  | nil =>
    have empty : s.queue.first = none := delta.rep.head_eq
    have silent : a = fun _ => none := by rw [← delta.exact]; rfl
    exact ⟨s, [], [], by simp [check, empty], by
      rw [silent]; exact ⟨delta.rep, by simp, by simp, rfl⟩, List.nodup_nil, by simp [silent]⟩
  | cons first rest =>
    by_cases due : s.ms first = 1
    · obtain ⟨after, eq, shows'⟩ := check_due delta due
      exact ⟨after, [first], rest, eq, shows', by simp, by simp [due_iff delta, due]⟩
    · obtain ⟨after, eq, shows'⟩ := check_waits delta due
      exact ⟨after, [], _, eq, shows', by simp, by simp [due_iff delta, due]⟩

end Check

/-- Every check in the log rang the bells whose time had come, each once. -/
def Rings (log : List (Event bells)) : Prop :=
  ∀ before rung after, log = before ++ .checked rung :: after →
    rung.Nodup ∧ ∀ bell, bell ∈ rung ↔ alarm before bell = some 1

theorem rings_snoc {log : List (Event bells)} {event : Event bells} (rings : Rings log)
    (last : ∀ rung, event = .checked rung →
      rung.Nodup ∧ ∀ bell, bell ∈ rung ↔ alarm log bell = some 1) : Rings (log ++ [event]) := by
  intro before rung after eq
  rcases List.eq_nil_or_concat' after with rfl | ⟨front, back, rfl⟩
  · obtain ⟨rfl, same⟩ := List.append_inj' eq rfl
    exact last rung (List.singleton_inj.mp same)
  · rw [← List.cons_append, ← List.append_assoc] at eq
    obtain ⟨rfl, _⟩ := List.append_inj' eq rfl
    exact rings before rung front rfl

structure Sound (s : Session bells) : Prop where
  delta : ∃ nodes, Shows s.ringer nodes (alarm s.log)
  rings : Rings s.log

theorem sound_start : Sound (Session.start : Session bells) :=
  ⟨⟨[], shows_new⟩, by intro before rung after eq; simp [Session.start] at eq⟩

theorem sound_step {s after : Session bells} {call : Call bells} (sound : Sound s)
    (earliest : Earliest s call) (h : s.step call = some after) : Sound after := by
  obtain ⟨⟨nodes, delta⟩, rings⟩ := sound
  cases call with
  | job bell ms =>
    simp only [Session.step] at h
    split at h
    · next granted =>
      obtain ⟨fresh, positive, bounded⟩ := granted
      rw [queued_eq delta.rep] at fresh
      obtain ⟨ringer, eq, later⟩ := shows_job delta fresh positive bounded earliest
      rw [eq] at h
      cases h
      exact ⟨⟨_, by simpa [Alarm.next] using later⟩, rings_snoc rings (by simp)⟩
    · cases h
  | check =>
    obtain ⟨ringer, rung, rest, eq, later, nodup, due⟩ := shows_check delta
    simp only [Session.step, eq, Option.map_some, Option.some.injEq] at h
    subst h
    refine ⟨⟨rest, by simpa [Alarm.next] using later⟩, rings_snoc rings fun other same => ?_⟩
    cases same
    exact ⟨nodup, due⟩

def Event.isCheck : Event bells → Bool
  | .checked _ => true
  | .jobbed _ _ => false

/-- The number of checks in a stretch of the log. -/
def checks (log : List (Event bells)) : Nat := log.countP Event.isCheck

theorem alarm_never {log : List (Event bells)} {bell : Fin bells}
    (never : ∀ ms, Event.jobbed bell ms ∉ log) : alarm log bell = none := by
  induction log using List.reverseRecOn with
  | nil => rfl
  | append_singleton log event ih =>
    have before := ih fun ms member => never ms (List.mem_append_left _ member)
    cases event with
    | jobbed other ms =>
      have distinct : bell ≠ other := fun eq => never ms (by simp [eq])
      simp [Alarm.next, distinct, before]
    | checked rung => simp [Alarm.next, Alarm.tick, before]

/-- A bell's waiting time shrinks by one with every check after its job. -/
theorem alarm_since {before middle : List (Event bells)} {bell : Fin bells} {ms : Nat}
    (positive : 0 < ms) (once : ∀ n, Event.jobbed bell n ∉ middle) :
    alarm (before ++ .jobbed bell ms :: middle) bell =
      if checks middle < ms then some (ms - checks middle) else none := by
  induction middle using List.reverseRecOn with
  | nil => simp [Alarm.next, checks, positive]
  | append_singleton middle event ih =>
    have earlier := ih fun n member => once n (List.mem_append_left _ member)
    rw [← List.cons_append, ← List.append_assoc, alarm_snoc]
    cases event with
    | jobbed other n =>
      have distinct : bell ≠ other := fun eq => once n (by simp [eq])
      have counted : checks (middle ++ [.jobbed other n]) = checks middle := by
        simp [checks, Event.isCheck]
      rw [counted, ← earlier]
      simp [Alarm.next, distinct]
    | checked rung =>
      have counted : checks (middle ++ [.checked rung]) = checks middle + 1 := by simp [checks, Event.isCheck]
      simp only [Alarm.next, Alarm.tick, earlier, counted]
      by_cases last : checks middle + 1 < ms
      · obtain ⟨left, eq⟩ : ∃ left, ms - checks middle = left + 2 := ⟨ms - checks middle - 2, by omega⟩
        rw [if_pos (by omega), if_pos last, eq]
        simp only [Option.some.injEq]
        omega
      · rw [if_neg last]
        split
        next left eq => split at eq <;> simp at eq; omega
        next => rfl

/-- Every bell rings in exactly the check its job asked for and in no other. -/
structure Punctual (log : List (Event bells)) : Prop where
  due : ∀ before bell ms middle rung after,
    log = before ++ .jobbed bell ms :: (middle ++ .checked rung :: after) →
    (∀ n, Event.jobbed bell n ∉ middle) → (bell ∈ rung ↔ checks middle + 1 = ms)
  unasked : ∀ before rung after bell, log = before ++ .checked rung :: after →
    (∀ n, Event.jobbed bell n ∉ before) → bell ∉ rung
  once : ∀ before rung after, log = before ++ .checked rung :: after → rung.Nodup

/-- Every job in the log asked for a positive time. -/
def Asked (log : List (Event bells)) : Prop := ∀ bell ms, Event.jobbed bell ms ∈ log → 0 < ms

theorem asked_step {s after : Session bells} {call : Call bells} (asked : Asked s.log)
    (h : s.step call = some after) : Asked after.log := by
  cases call with
  | job bell ms =>
    simp only [Session.step] at h
    split at h
    · next granted =>
      obtain ⟨ringer, _, rfl⟩ := Option.map_eq_some_iff.mp h
      intro other n member
      rcases List.mem_append.mp member with old | new
      · exact asked other n old
      · cases List.mem_singleton.mp new; exact granted.2.1
    · cases h
  | check =>
    obtain ⟨_, _, rfl⟩ := Option.map_eq_some_iff.mp h
    intro other n member
    rcases List.mem_append.mp member with old | new
    · exact asked other n old
    · cases List.mem_singleton.mp new

theorem punctual_of_rings {log : List (Event bells)} (rings : Rings log) (asked : Asked log) :
    Punctual log := by
  refine ⟨?_, ?_, fun before rung after eq => (rings before rung after eq).1⟩
  · intro before bell ms middle rung after eq once
    have positive := asked bell ms (by simp [eq])
    rw [(rings (before ++ .jobbed bell ms :: middle) rung after (by simp [eq])).2 bell,
      alarm_since positive once]
    by_cases early : checks middle < ms
    · rw [if_pos early, Option.some.injEq]; omega
    · rw [if_neg early]; simp; omega
  · intro before rung after bell eq never member
    have := ((rings before rung after eq).2 bell).mp member
    rw [alarm_never never] at this
    cases this

/-- In every run in which each new bell is due before all queued ones, every bell rings
in exactly the check its job asked for; the counters in the queue are positive and add
up to the waiting times, so none of them ever wrapped; and checks return. -/
theorem bells_ring_on_time (calls : List (Call bells)) (s : Session bells)
    (run : Run.exec Session.step Session.start calls = some s)
    (earliest : Run.Along Session.step Earliest Session.start calls) :
    Punctual s.log ∧ (∀ bell ∈ s.ringer.queued, 0 < s.ringer.ms bell) ∧
    remaining s.ringer.ms s.ringer.queued = alarm s.log ∧ (s.step .check).isSome := by
  have sound := Run.invariant_along Sound
    (fun _ _ _ sound earliest h => sound_step sound earliest h) run earliest sound_start
  have asked := Run.invariant (fun s : Session bells => Asked s.log)
    (fun _ _ _ asked h => asked_step asked h) run (by intro bell ms member; cases member)
  obtain ⟨nodes, delta⟩ := sound.delta
  obtain ⟨_, _, _, eq, _⟩ := shows_check delta
  rw [queued_eq delta.rep]
  exact ⟨punctual_of_rings sound.rings asked, delta.positive, delta.exact, by simp [Session.step, eq]⟩

theorem bells_ring_on_time_two_bells : ∃ s : Session 2,
    Run.exec Session.step Session.start [.job 0 3, .check, .job 1 1, .check, .check] = some s ∧
      s.log = [.jobbed 0 3, .checked [], .jobbed 1 1, .checked [1], .checked [0]] ∧ Punctual s.log := by
  have timed := bells_ring_on_time ([.job 0 3, .check, .job 1 1, .check, .check] : List (Call 2)) _ rfl
    (by decide)
  exact ⟨_, rfl, by decide, timed.1⟩

/-- A bell due after the last queued one is never inserted and never rings. -/
theorem later_bell_lost : ∃ s : Session 2,
    Run.exec Session.step Session.start [.job 0 1, .job 1 2, .check, .check] = some s ∧
      ¬ Punctual s.log := by
  refine ⟨_, rfl, fun punctual => ?_⟩
  have rings := punctual.due [.jobbed 0 1] 1 2 [.checked [0]] [] [] (by decide) (by simp)
  exact absurd (rings.mpr rfl) (by decide)

/-- A bell due together with the first one makes that one's counter wrap. -/
example : ((Run.exec Session.step (Session.start : Session 2) [.job 0 1, .job 1 1, .check]).map
    fun s => s.ringer.ms 0) = some (2 ^ 32 - 1) := by decide

end MPStuBS.Bellringer
