import MPStuBS.KeyboardPipeline

/-! Both halves of the keyboard in all reachable states. -/
namespace MPStuBS.Keyboard

variable {cfg : Config} {semaphore : Fin cfg.semaphores}

open ThreadQueues

/-- The keys that entered both buffers, in the order in which the epilogue took them. -/
def forwarded (s : Keyboard cfg) : List Key := (s.moved.filter Prod.snd).map Prod.fst

structure Inv (semaphore : Fin cfg.semaphores) (s : Keyboard cfg) : Prop where
  inbound : Inbound s.pro s.prologue (s.epilogue.map Prod.snd) s.accepted (s.moved.map Prod.fst)
  outbound : Outbound semaphore s.kernel s.reading s.epi s.forwarded (s.returned.map Prod.snd)
  asserted : s.failed = false

section Steps

variable {s after : Keyboard cfg} {core : Fin cfg.cores} {that : Thread cfg}

theorem inv_take {k : Key} {rest : BBuffer Key BUFFER_SIZE}
    (inbound : Inbound s.pro s.prologue (s.epilogue.map Prod.snd) s.accepted (s.moved.map Prod.fst))
    (asserted : s.failed = false) (found : s.epi.consume = (some k, rest))
    (taken : Outbound semaphore s.kernel (Function.update s.reading that false) rest s.forwarded
      (s.returned.map Prod.snd ++ [k])) : (s.take that).Inv semaphore := by
  rw [take, found]
  exact ⟨inbound, by simpa [forwarded] using taken, asserted⟩

theorem inv_boot (semaphore : Fin cfg.semaphores) (counter : Fin cfg.semaphores → Nat) :
    (boot semaphore counter).Inv semaphore := by
  have empty : (boot semaphore counter).pro.contents = [] := BBuffer.contents_new (by decide) _
  have nobody : waiting (boot semaphore counter).kernel.queues (.semaphore semaphore) = [] :=
    congrFun (Pointers.valid_new cfg).2 (some (.semaphore semaphore))
  refine ⟨⟨trivial, trivial, empty.symm⟩, ⟨good_boot _, ?_, ?_, ?_, empty.symm⟩, rfl⟩
  · simp [nobody]
  · simp [nobody]
  · have zero : (boot semaphore counter).kernel.counter semaphore = 0 := Function.update_self ..
    rw [zero, nobody]
    simp [woken, boot, BBuffer.new, BBuffer.length]

theorem inv_interrupt {fetched : Option Key} (inv : s.Inv semaphore)
    (eq : s.interrupt fetched = some after) : after.Inv semaphore := by
  obtain ⟨inbound, outbound, asserted⟩ := inv
  unfold interrupt at eq
  split at eq
  case h_1 => cases eq; exact ⟨inbound, outbound, asserted⟩
  case h_2 =>
    obtain rfl := Option.some.inj eq
    exact ⟨⟨trivial, inbound.fetching, inbound.history⟩, outbound, asserted⟩
  case h_3 => cases eq

theorem inv_produce (inv : s.Inv semaphore) (eq : s.produce = some after) : after.Inv semaphore := by
  obtain ⟨inbound, outbound, asserted⟩ := inv
  unfold produce at eq
  split at eq
  case h_1 => cases eq
  case h_2 input here =>
    obtain rfl := Option.some.inj eq
    exact ⟨(here ▸ inbound).test, outbound, asserted⟩
  case h_3 input here =>
    obtain rfl := Option.some.inj eq
    exact ⟨(here ▸ inbound).store, outbound, asserted⟩
  case h_4 input here =>
    obtain rfl := Option.some.inj eq
    exact ⟨(here ▸ inbound).publish, outbound, asserted⟩

theorem inv_begin (inv : s.Inv semaphore) (idle : s.epilogue = none) :
    ({ s with epilogue := some (core, .test) } : Keyboard cfg).Inv semaphore := by
  obtain ⟨⟨storing, -, history⟩, outbound, asserted⟩ := inv
  rw [idle] at history
  exact ⟨⟨storing, trivial, history⟩, outbound, asserted⟩

theorem inv_advance (inv : s.Inv semaphore) (eq : s.advance semaphore = some after) :
    after.Inv semaphore := by
  obtain ⟨inbound, outbound, asserted⟩ := inv
  unfold advance at eq
  split at eq
  case h_1 => cases eq
  case h_2 core here =>
    obtain rfl := Option.some.inj eq
    have checked := Inbound.check (by simpa [here] using inbound)
    refine ⟨?_, outbound, asserted⟩
    split_ifs at checked ⊢ <;> exact checked
  case h_3 core here =>
    obtain rfl := Option.some.inj eq
    exact ⟨Inbound.read (by simpa [here] using inbound), outbound, asserted⟩
  case h_4 core k here =>
    obtain rfl := Option.some.inj eq
    exact ⟨Inbound.release (by simpa [here] using inbound), outbound, asserted⟩
  case h_5 core k here =>
    have delivered := Inbound.deliver (k := k) (by simpa [here] using inbound)
    split at eq
    case h_1 =>
      obtain rfl := Option.some.inj eq
      exact ⟨by simpa using delivered, by simpa [forwarded] using outbound, asserted⟩
    case h_2 epi produced =>
      obtain ⟨kernel, signalled, rfl⟩ := Option.map_eq_some_iff.mp eq
      have ok : Semaphore.v core semaphore s.kernel = .ok kernel := by
        revert signalled
        cases Semaphore.v core semaphore s.kernel <;> simp [Except.toOption]
      have stored := outbound.deliver produced ok
      exact ⟨by simpa using delivered, by simpa [forwarded] using stored, asserted⟩

theorem inv_getKey (inv : s.Inv semaphore) (outside : s.Outside core) (app : s.kernel.AppOn core)
    (eq : s.getKey core semaphore = some after) : after.Inv semaphore := by
  obtain ⟨inbound, outbound, asserted⟩ := inv
  obtain ⟨id, active⟩ := app
  simp only [getKey, Dispatcher.active, active] at eq
  obtain ⟨kernel, called, rfl⟩ := Option.map_eq_some_iff.mp eq
  have ok : Semaphore.p core semaphore s.kernel = .ok kernel := by
    revert called
    cases Semaphore.p core semaphore s.kernel <;> simp [Except.toOption]
  split
  case isTrue positive =>
    obtain ⟨k, rest, found, passed⟩ := outbound.pass active positive ok
    have same : Function.update s.reading (.app id) false = s.reading := by
      rw [← outside _ active, Function.update_eq_self]
    exact inv_take inbound asserted found (by rwa [same])
  case isFalse zero =>
    exact ⟨inbound, outbound.wait active (outside _ active) (Nat.eq_zero_of_not_pos zero) ok, asserted⟩

theorem inv_step {action : Action cfg} (inv : s.Inv semaphore)
    (eq : s.step semaphore action = some after) : after.Inv semaphore := by
  cases action with
  | interrupt fetched => exact inv_interrupt inv eq
  | produce => exact inv_produce inv eq
  | begin core =>
    obtain ⟨idle, ⟨⟩⟩ := Option.ite_none_right_eq_some.mp eq
    exact inv_begin inv idle
  | advance => exact inv_advance inv eq
  | getKey core =>
    obtain ⟨⟨-, outside, app⟩, eq⟩ := Option.ite_none_right_eq_some.mp eq
    exact inv_getKey inv outside app eq
  | proceed core =>
    cases active : s.kernel.lifePointer core with
    | none => simp [step, Dispatcher.active, active] at eq
    | some that =>
      simp only [step, Dispatcher.active, active] at eq
      obtain ⟨⟨-, reads⟩, ⟨⟩⟩ := Option.ite_none_right_eq_some.mp eq
      obtain ⟨k, rest, found, taken⟩ := inv.outbound.proceed active reads
      exact inv_take inv.inbound inv.asserted found taken
  | call core op =>
    obtain ⟨⟨-, -, foreign⟩, eq⟩ := Option.ite_none_right_eq_some.mp eq
    obtain ⟨kernel, called, rfl⟩ := Option.map_eq_some_iff.mp eq
    exact ⟨inv.inbound, inv.outbound.call foreign called, inv.asserted⟩

theorem inv_run {counter : Fin cfg.semaphores → Nat} {actions : List (Action cfg)}
    {final : Keyboard cfg} (run : Run.exec (step semaphore) (boot semaphore counter) actions = some final) :
    final.Inv semaphore :=
  Run.invariant (Inv semaphore) (fun _ _ _ inv eq => inv_step inv eq) run (inv_boot semaphore counter)

end Steps

/-- In every reachable state the second buffer holds one key for each unit of the
counter and each woken reader that has not consumed; the assertion has never failed;
and every key the prologue accepted is either taken by the epilogue, on its way, or
still in the first buffer, and every key the second buffer accepted is either returned
or still there, all of them once and in order. -/
theorem keys_in_order (cfg : Config) (semaphore : Fin cfg.semaphores)
    (counter : Fin cfg.semaphores → Nat) (actions : List (Action cfg)) (final : Keyboard cfg)
    (run : Run.exec (step semaphore) (boot semaphore counter) actions = some final) :
    final.epi.contents.length = final.kernel.counter semaphore +
      woken final.reading (waiting final.kernel.queues (.semaphore semaphore)) ∧
    final.failed = false ∧
    final.accepted = final.moved.map Prod.fst ++ inFlight (final.epilogue.map Prod.snd) ++
      final.pro.contents ∧
    final.forwarded = final.returned.map Prod.snd ++ final.epi.contents := by
  obtain ⟨inbound, outbound, asserted⟩ := inv_run run
  refine ⟨?_, asserted, inbound.history, outbound.history⟩
  rw [BBuffer.length_contents]
  exact outbound.count

/-- A reader waits, a second key arrives in the middle of the epilogue, and the reader
is dispatched after both are stored. -/
theorem keys_in_order_two_keys :
    ∃ final : Keyboard ⟨1, 2, 1, 0⟩, Run.exec (step 0) (boot 0 fun _ => 0)
      [.call 0 (.ready (.app 0)), .call 0 (.ready (.app 1)), .call 0 .schedule, .getKey 0,
        .interrupt (some { Key.invalid with scancode := 30 }), .produce, .produce, .produce,
        .begin 0, .advance, .advance, .interrupt (some { Key.invalid with scancode := 48 }),
        .produce, .advance, .produce, .advance, .produce, .advance, .advance, .advance, .advance,
        .advance, .call 0 .resume, .proceed 0] = some final ∧
      final.forwarded.map Key.scancode = [30, 48] ∧
      final.returned.map (fun entry => (entry.1, entry.2.scancode)) = [(.app 0, 30)] ∧
      final.epi.contents.length = final.kernel.counter 0 +
        woken final.reading (waiting final.kernel.queues (.semaphore 0)) := by
  have ends : (Run.exec (step 0) (boot 0 fun _ => 0 : Keyboard ⟨1, 2, 1, 0⟩)
      [.call 0 (.ready (.app 0)), .call 0 (.ready (.app 1)), .call 0 .schedule, .getKey 0,
        .interrupt (some { Key.invalid with scancode := 30 }), .produce, .produce, .produce,
        .begin 0, .advance, .advance, .interrupt (some { Key.invalid with scancode := 48 }),
        .produce, .advance, .produce, .advance, .produce, .advance, .advance, .advance, .advance,
        .advance, .call 0 .resume, .proceed 0]).map (fun s => (s.forwarded.map Key.scancode,
          s.returned.map fun entry => (entry.1, entry.2.scancode))) =
      some ([30, 48], [(.app 0, 30)]) := by decide +kernel
  obtain ⟨final, run, same⟩ := Option.map_eq_some_iff.mp ends
  obtain ⟨forwarded, returned⟩ := Prod.mk.inj same
  exact ⟨final, run, forwarded, returned, (keys_in_order _ _ _ _ final run).1⟩

end MPStuBS.Keyboard
