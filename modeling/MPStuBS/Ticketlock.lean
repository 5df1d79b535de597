import Mathlib.Algebra.Group.Nat.Defs
import Mathlib.Data.Fintype.Card
import Mathlib.Logic.Function.Basic

/-! `sync/ticketlock.cc` with its 64-bit counters, which may wrap around. The parties
that drew a ticket stand in a line with consecutive tickets; only the first can hold
the lock. -/
namespace MPStuBS

structure Ticketlock where
  ticketCurrent : BitVec 64
  ticketCount : BitVec 64
  deriving DecidableEq, Repr

namespace Ticketlock

def new : Ticketlock := ⟨0, 0⟩

/-- The atomic increment of `lock`, which draws a ticket. -/
def take (lock : Ticketlock) : BitVec 64 × Ticketlock :=
  (lock.ticketCount, { lock with ticketCount := lock.ticketCount + 1 })

def unlock (lock : Ticketlock) : Ticketlock := { lock with ticketCurrent := lock.ticketCurrent + 1 }

inductive Role where
  | away
  | waiting (ticket : BitVec 64)
  | holding
  deriving DecidableEq, Repr

variable {C : Type}

structure Line (lock : Ticketlock) (role : C → Role) (row : List C) : Prop where
  nodup : row.Nodup
  count : lock.ticketCount = lock.ticketCurrent + BitVec.ofNat 64 row.length
  member : ∀ c, c ∈ row ↔ role c ≠ .away
  place : ∀ (i : Nat) (c : C), row[i]? = some c →
    role c = .waiting (lock.ticketCurrent + BitVec.ofNat 64 i) ∨ i = 0 ∧ role c = .holding

namespace Line

variable {lock : Ticketlock} {role : C → Role} {row : List C} {c d : C} {ticket : BitVec 64}

theorem start (ticket : BitVec 64) : Line ⟨ticket, ticket⟩ (fun _ : C => .away) [] where
  nodup := List.nodup_nil
  count := (BitVec.add_zero ticket).symm
  member c := by simp
  place i c h := by simp at h

theorem new : Line .new (fun _ : C => .away) [] := start 0

theorem first_of_holding (ordered : Line lock role row) (holds : role c = .holding) :
    ∃ rest, row = c :: rest := by
  obtain ⟨i, here⟩ := List.mem_iff_getElem?.mp ((ordered.member c).mpr (by simp [holds]))
  rcases ordered.place i c here with waits | ⟨rfl, _⟩
  · rw [holds] at waits; cases waits
  · cases row with
    | nil => simp at here
    | cons d rest => exact ⟨rest, by simpa using here⟩

theorem holder_unique (ordered : Line lock role row) (first : role c = .holding)
    (second : role d = .holding) : c = d := by
  obtain ⟨rest, eq⟩ := ordered.first_of_holding first
  obtain ⟨_, eq'⟩ := ordered.first_of_holding second
  simp_all

/-- Fewer tickets than numbers: the ticket that is up belongs to the first. -/
theorem first_of_current (few : row.length < 2 ^ 64) (ordered : Line lock role row) (waits : role c = .waiting lock.ticketCurrent) :
    ∃ rest, row = c :: rest := by
  obtain ⟨i, here⟩ := List.mem_iff_getElem?.mp ((ordered.member c).mpr (by simp [waits]))
  have bound : i < row.length := (List.getElem?_eq_some_iff.mp here).1
  have zero : i = 0 := by
    rcases ordered.place i c here with also | ⟨rfl, _⟩
    · rw [waits] at also
      have same := congrArg BitVec.toNat (Role.waiting.inj also)
      simp only [BitVec.toNat_add, BitVec.toNat_ofNat] at same
      have := lock.ticketCurrent.isLt
      omega
    · rfl
  subst zero
  cases row with
  | nil => simp at here
  | cons d rest => exact ⟨rest, by simpa using here⟩

variable [DecidableEq C]

theorem take (ordered : Line lock role row) (away : role c = .away) :
    Line lock.take.2 (Function.update role c (.waiting lock.take.1)) (row ++ [c]) := by
  have outside : c ∉ row := fun inside => (ordered.member c).mp inside away
  constructor
  · simp [List.nodup_append, ordered.nodup]
    rintro d member rfl
    exact outside member
  · simp only [Ticketlock.take, ordered.count, List.length_append, List.length_singleton,
      BitVec.ofNat_add, BitVec.add_assoc]
    rfl
  · intro d
    by_cases same : d = c
    · simp [same]
    · simp [same, ordered.member]
  · intro i d here
    rcases Nat.lt_or_ge i row.length with inside | beyond
    · rw [List.getElem?_append_left inside] at here
      have distinct : d ≠ c := by
        rintro rfl
        exact outside (List.mem_of_getElem? here)
      simpa [distinct, Ticketlock.take] using ordered.place i d here
    · rw [List.getElem?_append_right beyond] at here
      obtain ⟨last, rfl⟩ : i - row.length = 0 ∧ c = d := by
        cases h : i - row.length with
        | zero => simpa [h] using here
        | succ k => simp [h] at here
      obtain rfl : i = row.length := by omega
      exact .inl (by simp [Ticketlock.take, ordered.count])

theorem acquire (few : row.length < 2 ^ 64) (ordered : Line lock role row)
    (waits : role c = .waiting lock.ticketCurrent) :
    Line lock (Function.update role c .holding) row ∧ ∀ d, role d ≠ .holding := by
  obtain ⟨rest, rfl⟩ := ordered.first_of_current few waits
  constructor
  · refine ⟨ordered.nodup, ordered.count, fun d => ?_, fun i d here => ?_⟩
    · by_cases same : d = c
      · simp [same]
      · simpa [same] using ordered.member d
    · by_cases same : d = c
      · subst same
        cases i with
        | zero => exact .inr ⟨rfl, by simp⟩
        | succ i =>
          have := List.mem_of_getElem? (by simpa using here : rest[i]? = some d)
          exact absurd this (List.nodup_cons.mp ordered.nodup).1
      · simpa [same] using ordered.place i d here
  · intro d holds
    obtain ⟨_, eq⟩ := ordered.first_of_holding holds
    obtain ⟨rfl, _⟩ := List.cons.inj eq
    rw [waits] at holds
    cases holds

theorem release_first {rest : List C} (ordered : Line lock role (c :: rest)) :
    Line lock.unlock (Function.update role c .away) rest := by
  obtain ⟨outside, nodup⟩ := List.nodup_cons.mp ordered.nodup
  refine ⟨nodup, ?_, fun d => ?_, fun i d here => ?_⟩
  · simp only [Ticketlock.unlock, ordered.count, List.length_cons, BitVec.ofNat_add]
    rw [BitVec.add_comm (BitVec.ofNat 64 rest.length), ← BitVec.add_assoc]
    rfl
  · by_cases same : d = c
    · simp [same, outside]
    · have := ordered.member d
      simp [same] at this
      simpa [same] using this
  · have distinct : d ≠ c := by
      rintro rfl
      exact outside (List.mem_of_getElem? here)
    rcases ordered.place (i + 1) d (by simpa using here) with waits | ⟨none, _⟩
    · left
      simp only [distinct, ne_eq, not_false_eq_true, Function.update_of_ne, waits, Ticketlock.unlock,
        BitVec.ofNat_add]
      rw [BitVec.add_comm (BitVec.ofNat 64 i), ← BitVec.add_assoc]
      rfl
    · cases none

theorem release (ordered : Line lock role row) (holds : role c = .holding) :
    ∃ rest, Line lock.unlock (Function.update role c .away) rest := by
  obtain ⟨rest, rfl⟩ := ordered.first_of_holding holds
  exact ⟨rest, ordered.release_first⟩

end Line
end Ticketlock
end MPStuBS
