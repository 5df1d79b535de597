import MPStuBS.Keyboard

/-! Keys on their way from the interrupt to the readers. The first buffer is shared
between the prologue and the epilogue, which run interleaved; the second one is paired
with the semaphore. Each half has its own invariant. -/
namespace MPStuBS

variable {cfg : Config}

open ThreadQueues

namespace Threads

variable {v : Threads cfg} {semaphore : Fin cfg.semaphores} {count : Nat}
  {queue : List (Thread cfg)}

/-- The semaphore's counter and queue, whose threads all name it. -/
structure Gathers (v : Threads cfg) (semaphore : Fin cfg.semaphores) (count : Nat)
    (queue : List (Thread cfg)) : Prop where
  counter : v.counter semaphore = count
  waiting : v.waiting (.semaphore semaphore) = queue
  named : ∀ that ∈ queue, v.waitingroom that = some (.semaphore semaphore)

end Threads

/-- Moves that do not concern the semaphore. -/
def Move.Spares (semaphore : Fin cfg.semaphores) (queue : List (Thread cfg)) : Move cfg → Prop
  | .wait _ w _ | .ring w _ => w ≠ .semaphore semaphore
  | .pass other _ | .increment other _ | .hand other _ => other ≠ semaphore
  | .kill id => .app id ∉ queue
  | _ => True

namespace Threads.Gathers

variable {v : Threads cfg} {semaphore : Fin cfg.semaphores} {count : Nat}
  {queue : List (Thread cfg)}

/-- Waking the first thread of another room. -/
theorem wake (gathers : v.Gathers semaphore count queue) (placed : v.Placed) {w : Waitingroom cfg}
    {that : Thread cfg} (first : (v.waiting w).head? = some that) (elsewhere : w ≠ .semaphore semaphore) :
    (v.wake w that).Gathers semaphore count queue := by
  obtain ⟨counter, waiting, named⟩ := gathers
  refine ⟨counter, ?_, fun other member => ?_⟩
  · rw [wake_waiting, Function.update_of_ne (Ne.symm elsewhere), waiting]
  · have distinct : other ≠ that := by
      rintro rfl
      rw [← waiting] at member
      exact elsewhere (placed.room_unique (List.mem_of_mem_head? first) member)
    rw [wake_waitingroom, Function.update_of_ne distinct]
    exact named other member

theorem after {m : Move cfg} (gathers : v.Gathers semaphore count queue) (placed : v.Placed)
    (allowed : v.Allows m) (spares : m.Spares semaphore queue) :
    (v.after m).Gathers semaphore count queue := by
  obtain ⟨counter, waiting, named⟩ := id gathers
  cases m with
  | arrive | start | yield | abandon | leave =>
    constructor <;> simpa [Threads.after]
  | wait core w id =>
    refine ⟨by simpa [Threads.after] using counter, ?_, fun that member => ?_⟩
    · simpa [Threads.after, Ne.symm spares] using waiting
    · have distinct : that ≠ .app id := by
        rintro rfl
        exact placed.notWaiting_of_core allowed.1 _ (waiting ▸ member)
      simpa [Threads.after, distinct] using named that member
  | pass other that =>
    exact ⟨by simpa [Threads.after, Ne.symm spares] using counter, waiting, named⟩
  | increment other count =>
    exact ⟨by simpa [Threads.after, Ne.symm spares] using counter, waiting, named⟩
  | hand other that =>
    have noted : (v.note (.signalled other)).Gathers semaphore count queue := ⟨counter, waiting, named⟩
    exact noted.wake (placed.note _) allowed.1 fun same => spares (Waitingroom.semaphore.inj same)
  | ring w that => exact gathers.wake placed allowed.1 spares
  | kill id =>
    refine ⟨counter, waiting, fun that member => ?_⟩
    have distinct : that ≠ .app id := by rintro rfl; exact spares member
    simpa [Threads.after, distinct] using named that member

end Threads.Gathers

namespace Keyboard

variable {semaphore : Fin cfg.semaphores}

/-- The key that the epilogue has taken and not yet delivered. -/
def inFlight : Option EpiloguePc → List Key
  | some (.deliver k) => [k]
  | _ => []

/-- What the prologue relies on at its position. -/
def Storing (pro : BBuffer Key BUFFER_SIZE) : ProloguePc → Prop
  | .idle | .test _ => True
  | .store _ => pro.length + 1 < BUFFER_SIZE
  | .publish input => pro.length + 1 < BUFFER_SIZE ∧ pro.data pro.input = input

/-- What the epilogue relies on at its position. -/
def Fetching (pro : BBuffer Key BUFFER_SIZE) : Option EpiloguePc → Prop
  | some .read => 0 < pro.length
  | some (.release k) => pro.contents.head? = some k
  | _ => True

structure Inbound (pro : BBuffer Key BUFFER_SIZE) (prologue : ProloguePc)
    (epilogue : Option EpiloguePc) (accepted taken : List Key) : Prop where
  storing : Storing pro prologue
  fetching : Fetching pro epilogue
  history : accepted = taken ++ inFlight epilogue ++ pro.contents

namespace Inbound

variable {pro : BBuffer Key BUFFER_SIZE} {prologue : ProloguePc} {epilogue : Option EpiloguePc}
  {accepted taken : List Key} {input k : Key}

theorem test (inbound : Inbound pro (.test input) epilogue accepted taken) :
    Inbound pro (if BBuffer.next pro.input ≠ pro.out then .store input else .idle) epilogue accepted
      taken := by
  refine ⟨?_, inbound.fetching, inbound.history⟩
  split
  case isTrue space =>
    have bound := pro.length_lt
    have room := mt pro.full_iff.mpr space
    show pro.length + 1 < BUFFER_SIZE
    omega
  case isFalse => trivial

/-- Writing the free slot is invisible to the epilogue. -/
theorem store (inbound : Inbound pro (.store input) epilogue accepted taken) :
    Inbound (pro.store input) (.publish input) epilogue accepted taken := by
  obtain ⟨storing, fetching, history⟩ := inbound
  refine ⟨⟨storing, by simp [BBuffer.store]⟩, ?_, by rwa [BBuffer.contents_store]⟩
  cases epilogue with
  | none => trivial
  | some pc =>
    cases pc with
    | release k => rwa [Fetching, BBuffer.contents_store]
    | read => exact fetching
    | test | deliver => trivial

theorem publish (inbound : Inbound pro (.publish input) epilogue accepted taken) :
    Inbound pro.publish .idle epilogue (accepted ++ [input]) taken := by
  obtain ⟨⟨room, written⟩, fetching, history⟩ := inbound
  have contents := BBuffer.contents_publish room
  rw [written] at contents
  refine ⟨trivial, ?_, ?_⟩
  · cases epilogue with
    | none => trivial
    | some pc =>
      cases pc with
      | release k =>
        obtain ⟨rest, eq⟩ := List.head?_eq_some_iff.mp fetching
        rw [Fetching, contents, eq]
        rfl
      | read =>
        rw [Fetching, BBuffer.length_publish pro room]
        exact Nat.succ_pos _
      | test | deliver => trivial
  · rw [contents, history, List.append_assoc]

theorem check (inbound : Inbound pro prologue (some .test) accepted taken) :
    Inbound pro prologue (if pro.input ≠ pro.out then some .read else none) accepted taken := by
  refine ⟨inbound.storing, ?_, ?_⟩
  · split
    case isTrue some => exact Nat.pos_of_ne_zero (mt pro.empty_iff.mpr some)
    case isFalse => trivial
  · split <;> exact inbound.history

theorem read (inbound : Inbound pro prologue (some .read) accepted taken) :
    Inbound pro prologue (some (.release (pro.data pro.out))) accepted taken := by
  refine ⟨inbound.storing, ?_, inbound.history⟩
  rw [Fetching, BBuffer.contents_release inbound.fetching]
  rfl

theorem release (inbound : Inbound pro prologue (some (.release k)) accepted taken) :
    Inbound pro.release prologue (some (.deliver k)) accepted taken := by
  obtain ⟨storing, fetching, history⟩ := inbound
  obtain ⟨rest, head⟩ := List.head?_eq_some_iff.mp fetching
  have positive : 0 < pro.length := by
    rw [← BBuffer.length_contents, head]
    exact Nat.succ_pos _
  have shorter := BBuffer.length_release pro positive
  have contents := BBuffer.contents_release positive
  refine ⟨?_, trivial, ?_⟩
  · cases prologue with
    | store => exact Nat.lt_of_le_of_lt (by omega) storing
    | publish => exact ⟨Nat.lt_of_le_of_lt (by omega) storing.1, storing.2⟩
    | idle | test => trivial
  · rw [head] at contents
    obtain ⟨-, same⟩ := List.cons.inj contents
    rw [history, head, same]
    simp [inFlight]

theorem deliver (inbound : Inbound pro prologue (some (.deliver k)) accepted taken) :
    Inbound pro prologue (some .test) accepted (taken ++ [k]) := by
  refine ⟨inbound.storing, trivial, ?_⟩
  rw [inbound.history]
  simp [inFlight]

end Inbound

/-- The readers that were woken and have not consumed yet. -/
def woken (reading : Thread cfg → Bool) (queue : List (Thread cfg)) : Nat :=
  (Finset.univ.filter fun that => reading that = true ∧ that ∉ queue).card

section Woken

variable {reading : Thread cfg → Bool} {queue : List (Thread cfg)} {that : Thread cfg}

theorem woken_wait (outside : reading that = false) :
    woken (Function.update reading that true) (queue ++ [that]) = woken reading queue := by
  unfold woken
  congr 1
  ext other
  by_cases same : other = that
  · subst same; simp [outside]
  · simp [same]

theorem woken_wake (reads : reading that = true) (once : that ∉ queue) :
    woken reading queue = woken reading (that :: queue) + 1 := by
  unfold woken
  rw [← Finset.card_insert_of_notMem (a := that) (by simp)]
  congr 1
  ext other
  by_cases same : other = that
  · subst same; simp [reads, once]
  · simp [same]

theorem woken_proceed (reads : reading that = true) (outside : that ∉ queue) :
    woken (Function.update reading that false) queue + 1 = woken reading queue := by
  unfold woken
  rw [← Finset.card_insert_of_notMem (a := that) (by simp)]
  congr 1
  ext other
  by_cases same : other = that
  · subst same; simp [reads, outside]
  · simp [same]

end Woken
/-- The second buffer holds as many keys as the semaphore has granted or can grant. -/
structure Outbound (semaphore : Fin cfg.semaphores) (kernel : Kernel cfg (Pointers cfg))
    (reading : Thread cfg → Bool) (epi : BBuffer Key BUFFER_SIZE) (forwarded returned : List Key) :
    Prop where
  good : kernel.Good
  named : ∀ that ∈ waiting kernel.queues (.semaphore semaphore),
    kernel.waitingroom that = some (.semaphore semaphore)
  readers : ∀ that ∈ waiting kernel.queues (.semaphore semaphore), reading that = true
  count : epi.length = kernel.counter semaphore +
    woken reading (waiting kernel.queues (.semaphore semaphore))
  history : forwarded = returned ++ epi.contents

namespace Outbound

variable {kernel after : Kernel cfg (Pointers cfg)} {reading : Thread cfg → Bool}
  {epi : BBuffer Key BUFFER_SIZE} {forwarded returned : List Key} {core : Fin cfg.cores}
  {that : Thread cfg}

theorem fields_of_view {v : Threads cfg} (view : after.view = v) :
    waiting after.queues = v.waiting ∧ after.waitingroom = v.waitingroom ∧
      after.counter = v.counter := by
  subst view
  exact ⟨rfl, rfl, rfl⟩

theorem gathers (outbound : Outbound semaphore kernel reading epi forwarded returned) :
    kernel.view.Gathers semaphore (kernel.counter semaphore)
      (waiting kernel.queues (.semaphore semaphore)) :=
  ⟨rfl, rfl, outbound.named⟩

/-- Calls that do not concern the keyboard. -/
theorem call {s : Keyboard cfg} {op : Op cfg}
    (outbound : Outbound semaphore s.kernel s.reading epi forwarded returned)
    (foreign : s.Foreign semaphore op) (step : s.kernel.step (core, op) = some after) :
    Outbound semaphore after s.reading epi forwarded returned := by
  have spares (m : Move cfg) (makes : op.Makes core s.kernel m) :
      m.Spares semaphore (waiting s.kernel.queues (.semaphore semaphore)) := by
    cases op with
    | ready => obtain ⟨_, _, rfl⟩ := makes; trivial
    | schedule => obtain rfl := makes; trivial
    | resume | assassin => obtain ⟨_, rfl⟩ | ⟨_, rfl⟩ := makes <;> trivial
    | exit => obtain ⟨_, rfl⟩ := makes; trivial
    | kill =>
      obtain ⟨id, rfl, rfl⟩ := makes
      intro member
      have reads := outbound.readers _ member
      rw [show s.reading (.app id) = false from foreign] at reads
      cases reads
    | p other =>
      obtain ⟨_, rfl⟩ | ⟨_, rfl⟩ := makes
      · exact foreign
      · exact fun same => foreign (Waitingroom.semaphore.inj same)
    | v other =>
      obtain rfl | ⟨_, _, rfl⟩ := makes <;> exact foreign
    | sleep => obtain ⟨_, rfl⟩ := makes; exact nofun
    | ring => obtain ⟨_, _, rfl⟩ := makes; exact nofun
    | destroy w => obtain ⟨_, _, rfl⟩ := makes; exact foreign
    | check => obtain ⟨_, _, _, _, rfl⟩ := makes; exact nofun
    | watch =>
      obtain ⟨_, _, _, _, _, rfl⟩ | ⟨_, rfl⟩ | ⟨_, rfl⟩ := makes
      · exact nofun
      · trivial
      · trivial
  have kept : after.view.Gathers semaphore _ _ := step_invariant (Threads.Gathers · semaphore _ _)
    outbound.good (fun v m placed here makes allowed => here.after placed allowed (spares m makes)) step
    outbound.gathers
  have queue : waiting after.queues (.semaphore semaphore) = _ := kept.waiting
  have counter : after.counter semaphore = _ := kept.counter
  refine ⟨(step_moves outbound.good step).1, ?_, ?_, ?_, outbound.history⟩
  · rw [queue]; exact kept.named
  · rw [queue]; exact outbound.readers
  · rw [queue, counter]; exact outbound.count

/-- A thread that finds the counter at zero joins the queue. -/
theorem wait (outbound : Outbound semaphore kernel reading epi forwarded returned)
    {id : Fin cfg.threads} (active : kernel.lifePointer core = some (.app id))
    (outside : reading (.app id) = false) (zero : kernel.counter semaphore = 0)
    (eq : Semaphore.p core semaphore kernel = .ok after) :
    Outbound semaphore after (Function.update reading (.app id) true) epi forwarded returned := by
  obtain ⟨good, named, readers, count, history⟩ := outbound
  obtain ⟨blocked, found, valid, view⟩ := block_spec good active (.semaphore semaphore)
  have same : Semaphore.p core semaphore kernel = Scheduler.block core (.semaphore semaphore) kernel := by
    simp [Semaphore.p, Dispatcher.active, active, zero]
  obtain rfl : blocked = after := Except.ok.inj (found.symm.trans (same.symm.trans eq))
  have exhausted (other : Fin cfg.semaphores)
      (h : Waitingroom.semaphore semaphore = .semaphore other) : kernel.counter other = 0 := by
    cases h; exact zero
  have placed : blocked.view.Placed := by
    rw [view]
    exact good.placed.after ⟨active, exhausted⟩
  obtain ⟨queues, rooms, counters⟩ := fields_of_view view
  have queue : waiting blocked.queues (.semaphore semaphore) =
      waiting kernel.queues (.semaphore semaphore) ++ [.app id] := by
    simp [queues, Threads.after, Kernel.view]
  have counter : blocked.counter = kernel.counter := by
    simp [counters, Threads.after, Kernel.view]
  have rooms : blocked.waitingroom =
      Function.update kernel.waitingroom (.app id) (some (.semaphore semaphore)) := by
    simp [rooms, Threads.after, Kernel.view]
  refine ⟨⟨valid, placed⟩, ?_, ?_, ?_, history⟩
  · intro that member
    rw [rooms]
    by_cases same : that = .app id
    · simp [same]
    · rw [Function.update_of_ne same]
      rw [queue] at member
      exact named that (by simpa [same] using member)
  · intro that member
    by_cases same : that = .app id
    · simp [same]
    · rw [Function.update_of_ne same]
      rw [queue] at member
      exact readers that (by simpa [same] using member)
  · rw [queue, counter, woken_wait outside]
    exact count

/-- A thread that finds the counter positive takes a key at once. -/
theorem pass (outbound : Outbound semaphore kernel reading epi forwarded returned)
    (active : kernel.lifePointer core = some that) (positive : 0 < kernel.counter semaphore)
    (eq : Semaphore.p core semaphore kernel = .ok after) :
    ∃ k rest, epi.consume = (some k, rest) ∧
      Outbound semaphore after reading rest forwarded (returned ++ [k]) := by
  obtain ⟨good, named, readers, count, history⟩ := outbound
  obtain ⟨empty, -⟩ | ⟨k, rest, found, contents⟩ := epi.consume_spec
  · rw [← epi.length_contents, empty, List.length_nil] at count
    omega
  · refine ⟨k, rest, found, ?_⟩
    simp only [Semaphore.p, Dispatcher.active, active, positive, if_true] at eq
    obtain rfl := Except.ok.inj eq
    refine ⟨⟨good.valid, good.placed.after (m := .pass semaphore that) positive⟩, named, readers, ?_, ?_⟩
    · have length := congrArg List.length contents
      rw [List.length_cons, BBuffer.length_contents, BBuffer.length_contents] at length
      simp only [Kernel.note, Function.update_self]
      omega
    · rw [history, contents, List.append_assoc]
      rfl

/-- A woken reader takes a key. -/
theorem proceed (outbound : Outbound semaphore kernel reading epi forwarded returned)
    (active : kernel.lifePointer core = some that) (reads : reading that = true) :
    ∃ k rest, epi.consume = (some k, rest) ∧
      Outbound semaphore kernel (Function.update reading that false) rest forwarded (returned ++ [k]) := by
  obtain ⟨good, named, readers, count, history⟩ := outbound
  have outside : that ∉ waiting kernel.queues (.semaphore semaphore) := by
    cases that with
    | idlethread other => exact good.placed.idleRoom other _
    | app id => exact good.placed.notWaiting_of_core active _
  have one := woken_proceed reads outside
  obtain ⟨empty, -⟩ | ⟨k, rest, found, contents⟩ := epi.consume_spec
  · rw [← epi.length_contents, empty, List.length_nil] at count
    omega
  · refine ⟨k, rest, found, good, named, ?_, ?_, ?_⟩
    · intro other member
      have distinct : other ≠ that := by rintro rfl; exact outside member
      rw [Function.update_of_ne distinct]
      exact readers other member
    · have length := congrArg List.length contents
      rw [List.length_cons, BBuffer.length_contents, BBuffer.length_contents] at length
      omega
    · rw [history, contents, List.append_assoc]
      rfl

/-- `v` never meets a reader that names no room. -/
theorem v_returns (outbound : Outbound semaphore kernel reading epi forwarded returned)
    (core : Fin cfg.cores) :
    ∃ m after, Op.Makes core kernel (.v semaphore) m ∧ kernel.view.Allows m ∧ LawfulThreadQueues.Valid after.queues ∧
      after.view = kernel.view.after m ∧ Semaphore.v core semaphore kernel = .ok after := by
  obtain ⟨that, head, nameless, -⟩ | returns := v_spec outbound.good core semaphore
  · have names := outbound.named that (List.mem_of_mem_head? head)
    rw [nameless] at names
    cases names
  · exact returns

/-- A key comes in and nobody waits: the token goes to the counter, which a full buffer
keeps small. -/
theorem increment {k : Key} {rest : BBuffer Key BUFFER_SIZE}
    (outbound : Outbound semaphore kernel reading epi forwarded returned)
    (contents : rest.contents = epi.contents ++ [k])
    (allowed : kernel.view.Allows (.increment semaphore (kernel.counter semaphore)))
    (valid : LawfulThreadQueues.Valid after.queues)
    (view : after.view = kernel.view.after (.increment semaphore (kernel.counter semaphore))) :
    Outbound semaphore after reading rest (forwarded ++ [k]) returned := by
  obtain ⟨good, named, readers, count, history⟩ := outbound
  have length := congrArg List.length contents
  rw [List.length_append, BBuffer.length_contents, BBuffer.length_contents] at length
  have small : epi.length < 1024 := epi.length_lt
  have fits : (kernel.counter semaphore + 1) % 2 ^ 32 = kernel.counter semaphore + 1 := by
    apply Nat.mod_eq_of_lt
    omega
  obtain ⟨queue, rooms, counters⟩ := fields_of_view view
  have queue : waiting after.queues = waiting kernel.queues := queue
  have counter : after.counter semaphore = kernel.counter semaphore + 1 := by
    rw [counters]
    exact (Function.update_self ..).trans fits
  refine ⟨⟨valid, view ▸ good.placed.after allowed⟩, ?_, ?_, ?_, ?_⟩
  · rw [queue, rooms]; exact named
  · rw [queue]; exact readers
  · rw [queue, counter, length, count, List.length_singleton]
    omega
  · rw [contents, history, List.append_assoc]

/-- A key comes in and the first reader leaves the queue with the token. -/
theorem hand {k : Key} {rest : BBuffer Key BUFFER_SIZE}
    (outbound : Outbound semaphore kernel reading epi forwarded returned)
    (contents : rest.contents = epi.contents ++ [k])
    (allowed : kernel.view.Allows (.hand semaphore that))
    (valid : LawfulThreadQueues.Valid after.queues)
    (view : after.view = kernel.view.after (.hand semaphore that)) :
    Outbound semaphore after reading rest (forwarded ++ [k]) returned := by
  obtain ⟨good, named, readers, count, history⟩ := outbound
  have length := congrArg List.length contents
  rw [List.length_append, BBuffer.length_contents, BBuffer.length_contents] at length
  obtain ⟨others, nodes⟩ := List.head?_eq_some_iff.mp allowed.1
  have once : that ∉ others := by
    have nodup : (that :: others).Nodup := nodes ▸ good.placed.nodup_waiting (.semaphore semaphore)
    exact (List.nodup_cons.mp nodup).1
  have nodes : waiting kernel.queues (.semaphore semaphore) = that :: others := nodes
  obtain ⟨queues, rooms, counter⟩ := fields_of_view view
  have queue : waiting after.queues (.semaphore semaphore) = others := by
    simp [queues, Kernel.view, Threads.after, nodes]
  have rooms : after.waitingroom = Function.update kernel.waitingroom that none := rooms
  have counter : after.counter = kernel.counter := counter
  rw [nodes] at named readers count
  refine ⟨⟨valid, view ▸ good.placed.after allowed⟩, ?_, ?_, ?_, ?_⟩
  · intro other member
    rw [queue] at member
    have distinct : other ≠ that := by rintro rfl; exact once member
    rw [rooms, Function.update_of_ne distinct]
    exact named other (List.mem_cons_of_mem _ member)
  · intro other member
    rw [queue] at member
    exact readers other (List.mem_cons_of_mem _ member)
  · have reads := readers that List.mem_cons_self
    rw [queue, counter, length, count, woken_wake reads once, List.length_singleton]
    omega
  · rw [contents, history, List.append_assoc]

/-- The epilogue stores a key and signals it. -/
theorem deliver {k : Key} {rest : BBuffer Key BUFFER_SIZE}
    (outbound : Outbound semaphore kernel reading epi forwarded returned)
    (produced : epi.produce k = (true, rest)) (eq : Semaphore.v core semaphore kernel = .ok after) :
    Outbound semaphore after reading rest (forwarded ++ [k]) returned := by
  obtain ⟨m, signalled, makes, allowed, valid, view, found⟩ := outbound.v_returns core
  obtain rfl : signalled = after := Except.ok.inj (found.symm.trans eq)
  obtain ⟨-, full⟩ | ⟨_, stored, contents⟩ := epi.produce_spec k
  · simp [full] at produced
  · obtain rfl : _ = rest := congrArg Prod.snd (stored.symm.trans produced)
    obtain rfl | ⟨that, -, rfl⟩ := makes
    · exact outbound.increment contents allowed valid view
    · exact outbound.hand contents allowed valid view

end Outbound
end Keyboard
end MPStuBS
