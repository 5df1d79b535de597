import MPStuBS.Ticketlock
import MPStuBS.Run

/-! Any number of cores at one ticket lock, at the level of its atomic steps. -/
namespace MPStuBS.Ticketlock

variable {C : Type} [DecidableEq C]

/-- The lock, what each core does with it, and who drew a ticket and who got the lock, in order. -/
structure State (C : Type) where
  lock : Ticketlock
  role : C → Role
  taken : List C
  entered : List C
  released : Nat

/-- The atomic steps: the increment of `lock`, one look of its loop at the ticket that is up, and `unlock`. -/
inductive Action (C : Type) where
  | take (c : C)
  | spin (c : C)
  | unlock (c : C)

namespace State

/-- Before anyone drew a ticket; the counters may have any value. -/
def start (ticket : BitVec 64) : State C := ⟨⟨ticket, ticket⟩, fun _ => .away, [], [], 0⟩

def step (s : State C) : Action C → Option (State C)
  | .take c =>
    if s.role c = .away then
      let (ticket, lock) := s.lock.take
      some { s with
        lock := lock
        role := Function.update s.role c (.waiting ticket)
        taken := s.taken ++ [c] }
    else none
  | .spin c =>
    match s.role c with
    | .waiting ticket =>
      if ticket = s.lock.ticketCurrent then
        some { s with
          role := Function.update s.role c .holding
          entered := s.entered ++ [c] }
      else some s
    | _ => none
  | .unlock c =>
    if s.role c = .holding then
      some { s with
        lock := s.lock.unlock
        role := Function.update s.role c .away
        released := s.released + 1 }
    else none

/-- The tickets that were drawn and not given back. -/
def outstanding (s : State C) : Nat := s.taken.length - s.released

/-- There are never 2⁶⁴ outstanding tickets. -/
def Few (s : State C) : Action C → Prop
  | .take _ => s.outstanding + 1 < 2 ^ 64
  | _ => True

/-- Those who gave the lock back are the first of those who drew a ticket; the others stand in line. -/
structure Queued (s : State C) (done row : List C) : Prop where
  taken : s.taken = done ++ row
  released : s.released = done.length
  line : Line s.lock s.role row
  few : row.length < 2 ^ 64
  entered : s.entered = done ∧ (∀ c, s.role c ≠ .holding) ∨
    ∃ c rest, row = c :: rest ∧ s.role c = .holding ∧ s.entered = done ++ [c]

variable {s s' : State C} {done row : List C} {c d : C} {ticket : BitVec 64}

omit [DecidableEq C] in
theorem start_queued (ticket : BitVec 64) : (start ticket : State C).Queued [] [] :=
  ⟨rfl, rfl, .start ticket, Nat.two_pow_pos 64, .inl ⟨rfl, fun _ => by simp [start]⟩⟩

omit [DecidableEq C] in
theorem Queued.outstanding (queued : s.Queued done row) : s.outstanding = row.length := by
  unfold State.outstanding
  rw [queued.taken, queued.released, List.length_append, Nat.add_sub_cancel_left]

omit [DecidableEq C] in
/-- A ticket is up exactly if the core is the first in line. -/
theorem Queued.current_iff (queued : s.Queued done row) (waits : s.role c = .waiting ticket) :
    ticket = s.lock.ticketCurrent ↔ row.head? = some c := by
  constructor
  · rintro rfl
    obtain ⟨rest, rfl⟩ := queued.line.first_of_current queued.few waits
    rfl
  · intro first
    obtain ⟨rest, rfl⟩ := List.head?_eq_some_iff.mp first
    obtain up | ⟨-, holds⟩ := queued.line.place 0 c rfl
    · rw [waits, Role.waiting.injEq] at up
      simpa using up
    · rw [waits] at holds
      cases holds

/-- The holder goes, and nobody has got the lock yet. -/
theorem Queued.unlock {rest : List C} (queued : s.Queued done (c :: rest)) (holds : s.role c = .holding)
    (stepped : s.step (.unlock c) = some s') : s'.Queued (done ++ [c]) rest ∧ ∀ d, s'.role d ≠ .holding := by
  simp only [State.step, holds, if_true, Option.some.injEq] at stepped
  subst stepped
  have free : ∀ d, Function.update s.role c .away d ≠ .holding := by
    intro d
    by_cases same : d = c
    · simp [same]
    · rw [Function.update_of_ne same]
      exact fun also => same (queued.line.holder_unique also holds)
  refine ⟨⟨by simp [queued.taken], by simp [queued.released], queued.line.release_first,
    Nat.lt_of_succ_lt queued.few, .inl ⟨?_, free⟩⟩, free⟩
  obtain ⟨-, none⟩ | ⟨holder, others, eq, -, entered⟩ := queued.entered
  · exact absurd holds (none c)
  · obtain ⟨rfl, -⟩ := List.cons.inj eq
    exact entered

theorem Queued.step (queued : s.Queued done row) (a : Action C) (few : s.Few a) (stepped : s.step a = some s') :
    ∃ done' row', s'.Queued done' row' := by
  cases a with
  | take c =>
    simp only [State.step, Option.ite_none_right_eq_some, Option.some.injEq] at stepped
    obtain ⟨away, rfl⟩ := stepped
    have room : row.length + 1 < 2 ^ 64 := queued.outstanding ▸ few
    refine ⟨done, row ++ [c], ?_, queued.released, queued.line.take away, by simpa using room, ?_⟩
    · simp [queued.taken]
    · obtain ⟨none, free⟩ | ⟨holder, rest, rfl, holds, entered⟩ := queued.entered
      · refine .inl ⟨none, fun other => ?_⟩
        by_cases same : other = c
        · simp [same]
        · simpa [same] using free other
      · have distinct : holder ≠ c := by
          rintro rfl
          rw [holds] at away
          cases away
        exact .inr ⟨holder, rest ++ [c], rfl, by simpa [distinct] using holds, entered⟩
  | spin c =>
    cases waits : s.role c with
    | away => simp [State.step, waits] at stepped
    | holding => simp [State.step, waits] at stepped
    | waiting ticket =>
      simp only [State.step, waits] at stepped
      split at stepped
      · rename_i up
        cases stepped
        subst up
        obtain ⟨line, free⟩ := queued.line.acquire queued.few waits
        obtain ⟨rest, rfl⟩ := queued.line.first_of_current queued.few waits
        refine ⟨done, c :: rest, queued.taken, queued.released, line, queued.few, .inr ⟨c, rest, rfl, by simp, ?_⟩⟩
        obtain ⟨entered, -⟩ | ⟨holder, _, _, holds, _⟩ := queued.entered
        · exact congrArg (· ++ [c]) entered
        · exact absurd holds (free holder)
      · cases stepped
        exact ⟨done, row, queued⟩
  | unlock c =>
    by_cases holds : s.role c = .holding
    · obtain ⟨rest, rfl⟩ := queued.line.first_of_holding holds
      exact ⟨done ++ [c], rest, (queued.unlock holds stepped).1⟩
    · simp [State.step, holds] at stepped

/-- One core holds the lock at most, the cores get it in the order of their tickets, and nobody but
the next one does when the holder gives it back. -/
structure Fair (s : State C) : Prop where
  exclusive : ∀ c d, s.role c = .holding → s.role d = .holding → c = d
  ordered : s.entered <+: s.taken
  held : ∀ c d ticket, s.role c = .holding → s.role d = .waiting ticket → ticket ≠ s.lock.ticketCurrent
  next : ∀ c s', s.step (.unlock c) = some s' → (∃ d ticket, s.role d = .waiting ticket) →
    ∃ next, s.taken[s.entered.length]? = some next ∧ s'.role next = .waiting s'.lock.ticketCurrent ∧
      ∀ d ticket, s'.role d = .waiting ticket → (ticket = s'.lock.ticketCurrent ↔ d = next)

theorem Queued.fair (queued : s.Queued done row) : s.Fair where
  exclusive c d first second := queued.line.holder_unique first second
  ordered := by
    rw [queued.taken]
    obtain ⟨entered, -⟩ | ⟨c, rest, rfl, -, entered⟩ := queued.entered
    · rw [entered]
      exact List.prefix_append done row
    · rw [entered, List.append_cons done c rest]
      exact List.prefix_append _ rest
  held c d ticket holds waits up := by
    obtain ⟨rest, rfl⟩ := queued.line.first_of_holding holds
    obtain rfl : c = d := Option.some.inj ((queued.current_iff waits).mp up)
    rw [holds] at waits
    cases waits
  next c s' stepped waiting := by
    obtain ⟨d, ticket, waits⟩ := waiting
    have holds : s.role c = .holding := by
      by_contra none
      simp [State.step, none] at stepped
    obtain ⟨rest, rfl⟩ := queued.line.first_of_holding holds
    obtain ⟨queued', free⟩ := queued.unlock holds stepped
    have inside : d ∈ c :: rest := (queued.line.member d).mpr (by rw [waits]; nofun)
    obtain rfl | behind := List.mem_cons.mp inside
    · rw [holds] at waits
      cases waits
    obtain ⟨next, more, rfl⟩ := List.exists_cons_of_ne_nil (List.ne_nil_of_mem behind)
    refine ⟨next, ?_, ?_, fun other ticket waits => ?_⟩
    · obtain ⟨-, none⟩ | ⟨holder, others, eq, -, entered⟩ := queued.entered
      · exact absurd holds (none c)
      · rw [queued.taken, entered]
        obtain ⟨rfl, -⟩ := List.cons.inj eq
        simp
    · obtain up | ⟨-, also⟩ := queued'.line.place 0 next rfl
      · simpa using up
      · exact absurd also (free next)
    · rw [queued'.current_iff waits]
      exact Option.some.injEq next other ▸ eq_comm

/-- In every interleaving of the atomic steps with fewer than 2⁶⁴ outstanding tickets the lock is fair, also
where the counters wrap around. -/
theorem runs_fair (ticket : BitVec 64) (actions : List (Action C)) (s : State C)
    (run : Run.exec State.step (start ticket) actions = some s) (few : Run.Along State.step Few (start ticket) actions) :
    s.Fair := by
  obtain ⟨done, row, queued⟩ := Run.invariant_along (fun s : State C => ∃ done row, s.Queued done row)
    (fun _ a _ ⟨_, _, queued⟩ few stepped => queued.step a few stepped) run few ⟨[], [], start_queued ticket⟩
  exact queued.fair

/-- Three cores that draw the last two numbers and 0. -/
def wrapping : List (Action (Fin 3)) :=
  [.take 0, .take 1, .spin 1, .spin 0, .take 2, .unlock 0, .spin 2, .spin 1, .unlock 1, .spin 2]

instance (s : State C) (a : Action C) : Decidable (s.Few a) :=
  match a with
  | .take _ => inferInstanceAs (Decidable (_ < _))
  | .spin _ => isTrue trivial
  | .unlock _ => isTrue trivial

theorem wrapping_fair : ∃ s, Run.exec State.step (start 0xFFFFFFFFFFFFFFFE) wrapping = some s ∧ s.Fair :=
  ⟨_, rfl, runs_fair 0xFFFFFFFFFFFFFFFE wrapping _ rfl (by decide)⟩

end State
end MPStuBS.Ticketlock
