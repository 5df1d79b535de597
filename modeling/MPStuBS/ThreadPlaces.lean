import MPStuBS.ThreadMoves
import Mathlib.Algebra.BigOperators.Group.Finset.Piecewise
import Mathlib.Algebra.Order.BigOperators.Group.Finset
import Mathlib.Data.Fintype.Option

/-! Every thread is counted over all places. A move changes the count of the thread
it is about by at most one, so no thread is ever in two places. -/
namespace MPStuBS

variable {cfg : Config}

def placeEquiv (cfg : Config) : Option (Waitingroom cfg ⊕ Fin cfg.cores) ≃ Place cfg where
  toFun | none => .ready | some (.inl w) => .room w | some (.inr core) => .core core
  invFun | .ready => none | .room w => some (.inl w) | .core core => some (.inr core)
  left_inv := by rintro (_ | _ | _) <;> rfl
  right_inv := by rintro (_ | _ | _) <;> rfl

instance : Fintype (Place cfg) := Fintype.ofEquiv _ (placeEquiv cfg)

namespace Threads

/-- How often the thread is in a place. -/
def tally (v : Threads cfg) (that : Thread cfg) : Place cfg → Nat
  | .ready => v.ready.count that
  | .room w => (v.waiting w).count that
  | .core core => if v.life core = some that then 1 else 0

def weight (v : Threads cfg) (that : Thread cfg) : Nat := ∑ place, v.tally that place

variable {v v' : Threads cfg} {that other : Thread cfg} {core : Fin cfg.cores} {w : Waitingroom cfg}
  {place : Place cfg}

theorem weight_eq (ready : v'.ready = v.ready) (waiting : v'.waiting = v.waiting)
    (life : v'.life = v.life) : v'.weight that = v.weight that := by
  apply Finset.sum_congr rfl
  intro place _
  cases place <;> simp [tally, ready, waiting, life]

@[simp] theorem weight_note (v : Threads cfg) (event : Event cfg) (that : Thread cfg) :
    (v.note event).weight that = v.weight that := weight_eq rfl rfl rfl

theorem weight_update (place : Place cfg) {n : Nat}
    (h : v'.tally that = Function.update (v.tally that) place n) :
    v'.weight that + v.tally that place = v.weight that + n := by
  simp only [weight, h]
  rw [Finset.sum_update_of_mem (Finset.mem_univ place)]
  have := Finset.sum_eq_add_sum_sdiff_singleton_of_mem (Finset.mem_univ place) (v.tally that)
  omega

theorem tally_le (v : Threads cfg) (that : Thread cfg) (place : Place cfg) :
    v.tally that place ≤ v.weight that :=
  Finset.single_le_sum (fun _ _ => Nat.zero_le _) (Finset.mem_univ place)

theorem tally_add_le (v : Threads cfg) (that : Thread cfg) {place other : Place cfg}
    (distinct : place ≠ other) : v.tally that place + v.tally that other ≤ v.weight that := by
  have := Finset.sum_le_sum_of_subset (f := v.tally that) (Finset.subset_univ {place, other})
  rwa [Finset.sum_pair distinct] at this

theorem weight_ready (v v' : Threads cfg) (that : Thread cfg) (waiting : v'.waiting = v.waiting)
    (life : v'.life = v.life) :
    v'.weight that + v.ready.count that = v.weight that + v'.ready.count that := by
  apply weight_update .ready
  funext place
  cases place <;> simp [tally, waiting, life]

theorem weight_room (v v' : Threads cfg) (that : Thread cfg) (w : Waitingroom cfg)
    {nodes : List (Thread cfg)} (ready : v'.ready = v.ready)
    (waiting : v'.waiting = Function.update v.waiting w nodes) (life : v'.life = v.life) :
    v'.weight that + (v.waiting w).count that = v.weight that + nodes.count that := by
  apply weight_update (.room w)
  funext place
  cases place with
  | room other => by_cases same : other = w <;> simp [tally, waiting, same]
  | ready | core => simp [tally, ready, life]

theorem weight_core (v v' : Threads cfg) (that next : Thread cfg) (core : Fin cfg.cores)
    (ready : v'.ready = v.ready) (waiting : v'.waiting = v.waiting)
    (life : v'.life = Function.update v.life core (some next)) :
    v'.weight that + (if v.life core = some that then 1 else 0) =
      v.weight that + (if next = that then 1 else 0) := by
  apply weight_update (.core core)
  funext place
  cases place with
  | core other => by_cases same : other = core <;> simp [tally, life, same]
  | ready | room => simp [tally, ready, waiting]

theorem weight_append (v : Threads cfg) (other that : Thread cfg) :
    (v.append other).weight that = v.weight that + if other = that then 1 else 0 := by
  have := weight_ready v (v.append other) that rfl rfl
  simp only [append_ready, List.count_append, List.count_singleton, beq_iff_eq] at this
  omega

/-- Taking the next thread and running it moves it, idle threads apart. -/
theorem weight_switch (v : Threads cfg) (core : Fin cfg.cores) (id : Fin cfg.threads) :
    (v.switch core).weight (.app id) + (if v.life core = some (.app id) then 1 else 0) =
      v.weight (.app id) := by
  cases ready : v.ready with
  | nil =>
    have := weight_core v (v.switch core) (.app id) (.idlethread core) core
      (by simp [ready]) (by simp) (by simp [ready])
    simpa using this
  | cons next rest =>
    have taken := weight_ready v { v with ready := rest } (.app id) rfl rfl
    have ran := weight_core { v with ready := rest } (v.switch core) (.app id) next core
      (by simp [ready]) (by simp) (by simp [ready])
    simp only [ready, List.count_cons, beq_iff_eq] at taken ran
    omega

theorem weight_join (v : Threads cfg) (w : Waitingroom cfg) (other that : Thread cfg) :
    (v.join w other).weight that = v.weight that + if other = that then 1 else 0 := by
  have := weight_room v (v.join w other) that w rfl rfl rfl
  simp only [List.count_append, List.count_singleton, beq_iff_eq] at this
  omega

theorem weight_wake (that : Thread cfg) (first : (v.waiting w).head? = some other) :
    (v.wake w other).weight that = v.weight that := by
  obtain ⟨rest, waiting⟩ := List.head?_eq_some_iff.mp first
  have left := weight_room v { v with
    waiting := Function.update v.waiting w (v.waiting w).tail } that w rfl rfl rfl
  have came := weight_append { v with
    waiting := Function.update v.waiting w (v.waiting w).tail } other that
  have same : (v.wake w other).weight that = (append { v with
    waiting := Function.update v.waiting w (v.waiting w).tail } other).weight that :=
    weight_eq rfl rfl rfl
  simp only [waiting, List.tail_cons, List.count_cons, beq_iff_eq] at left came same
  omega

/-- How often the move brings the thread into the system. -/
def arrivals (id : Fin cfg.threads) : Move cfg → Nat
  | .arrive other => if other = id then 1 else 0
  | _ => 0

/-- How often the move takes the thread out of it. -/
def departures (v : Threads cfg) (id : Fin cfg.threads) : Move cfg → Nat
  | .leave _ that | .abandon _ that => if that = .app id then 1 else 0
  | .kill other => if other = id ∧ .app id ∈ v.ready then 1 else 0
  | _ => 0

theorem weight_after {m : Move cfg} (allowed : v.Allows m) (id : Fin cfg.threads) :
    (v.after m).weight (.app id) + v.departures id m = v.weight (.app id) + arrivals id m := by
  cases m with
  | arrive other =>
    have := weight_append (v.note (.readied (.app other))) (.app other) (.app id)
    simpa [after, departures, arrivals] using this
  | start core =>
    have := weight_switch v core id
    simpa [after, departures, arrivals, show v.life core = none from allowed] using this
  | yield core other =>
    have := weight_switch (v.append (.app other)) core id
    simp [weight_append, allowed.1] at this
    simp [after, departures, arrivals]
    omega
  | abandon core that =>
    have := weight_switch v core id
    simpa [after, departures, arrivals, allowed.1] using this
  | leave core that =>
    have := weight_switch (v.note (.exited that)) core id
    simpa [after, departures, arrivals, show v.life core = _ from allowed] using this
  | wait core w other =>
    have joined := weight_join v w (.app other) (.app id)
    have left := weight_switch (v.join w (.app other)) core id
    simp [allowed.1] at joined left
    simp [after, departures, arrivals]
    omega
  | pass sem that => exact weight_eq rfl rfl rfl
  | increment sem count => exact weight_eq rfl rfl rfl
  | hand sem that =>
    have := weight_wake (v := v.note (.signalled sem)) (.app id) allowed.1
    simpa [after, departures, arrivals] using this
  | ring w that => exact weight_wake (.app id) allowed.1
  | kill other =>
    have erased : (v.after (.kill other)).weight (.app id) + v.ready.count (.app id) =
        v.weight (.app id) + (v.ready.erase (.app other)).count (.app id) :=
      weight_ready v _ (.app id) rfl rfl
    have count : (v.ready.erase (.app other)).count (.app id) = _ := List.count_erase
    by_cases same : other = id
    · subst same
      simp only [BEq.rfl, if_true] at count
      simp only [departures, arrivals, true_and]
      by_cases member : Thread.app other ∈ v.ready
      · have := List.count_pos_iff.mpr member
        simp only [member, if_true]; omega
      · have := List.count_eq_zero_of_not_mem member
        simp only [member, if_false]; omega
    · simp [same] at count
      simp only [departures, arrivals, same, false_and, if_false]
      omega

/-- An idle thread is only ever on its own core, and a thread waits in the room it
names. -/
structure Tidy (v : Threads cfg) : Prop where
  idleReady : ∀ core, .idlethread core ∉ v.ready
  idleRoom : ∀ core w, .idlethread core ∉ v.waiting w
  idleCore : ∀ core other, v.life core = some (.idlethread other) → other = core
  named : ∀ that w, v.waitingroom that = some w → that ∈ v.waiting w

/-- Moreover no thread is in two places. -/
structure Placed (v : Threads cfg) : Prop extends Tidy v where
  once : ∀ id, v.weight (.app id) ≤ 1

namespace Placed

theorem appReady (placed : v.Placed) (member : that ∈ v.ready) : ∃ id, that = .app id := by
  cases that with
  | idlethread core => exact absurd member (placed.idleReady core)
  | app id => exact ⟨id, rfl⟩

theorem appRoom (placed : v.Placed) (member : that ∈ v.waiting w) : ∃ id, that = .app id := by
  cases that with
  | idlethread core => exact absurd member (placed.idleRoom core w)
  | app id => exact ⟨id, rfl⟩

theorem notReady_of_core {id : Fin cfg.threads} (placed : v.Placed)
    (active : v.life core = some (.app id)) : .app id ∉ v.ready := by
  intro member
  have pair := tally_add_le v (.app id) (show Place.ready ≠ .core core by simp)
  have := List.count_pos_iff.mpr member
  have := placed.once id
  simp [tally, active] at pair
  omega

theorem notWaiting_of_core {id : Fin cfg.threads} (placed : v.Placed)
    (active : v.life core = some (.app id)) (w : Waitingroom cfg) : .app id ∉ v.waiting w := by
  intro member
  have pair := tally_add_le v (.app id) (show Place.room w ≠ .core core by simp)
  have := List.count_pos_iff.mpr member
  have := placed.once id
  simp [tally, active] at pair
  omega

theorem notReady_of_room (placed : v.Placed) (member : that ∈ v.waiting w) : that ∉ v.ready := by
  intro ready
  obtain ⟨id, rfl⟩ := placed.appReady ready
  have pair := tally_add_le v (.app id) (show Place.ready ≠ .room w by simp)
  have := List.count_pos_iff.mpr member
  have := List.count_pos_iff.mpr ready
  have := placed.once id
  simp only [tally] at pair
  omega

theorem room_unique {w' : Waitingroom cfg} (placed : v.Placed) (member : that ∈ v.waiting w)
    (member' : that ∈ v.waiting w') : w = w' := by
  by_contra distinct
  obtain ⟨id, rfl⟩ := placed.appRoom member
  have pair := tally_add_le v (.app id) (show Place.room w ≠ .room w' by simpa)
  have := List.count_pos_iff.mpr member
  have := List.count_pos_iff.mpr member'
  have := placed.once id
  simp only [tally] at pair
  omega

theorem nodup_ready (placed : v.Placed) : v.ready.Nodup := by
  apply List.nodup_iff_count_le_one.mpr
  intro that
  by_cases member : that ∈ v.ready
  · obtain ⟨id, rfl⟩ := placed.appReady member
    exact (tally_le v (.app id) .ready).trans (placed.once id)
  · rw [List.count_eq_zero_of_not_mem member]; omega

theorem nodup_waiting (placed : v.Placed) (w : Waitingroom cfg) : (v.waiting w).Nodup := by
  apply List.nodup_iff_count_le_one.mpr
  intro that
  by_cases member : that ∈ v.waiting w
  · obtain ⟨id, rfl⟩ := placed.appRoom member
    exact (tally_le v (.app id) (.room w)).trans (placed.once id)
  · rw [List.count_eq_zero_of_not_mem member]; omega

end Placed

theorem weight_absent (absent : v.Absent that) : v.weight that = 0 := by
  apply Finset.sum_eq_zero
  intro place _
  cases place with
  | ready => exact List.count_eq_zero_of_not_mem absent.1
  | room w => exact List.count_eq_zero_of_not_mem (absent.2.1 w)
  | core core => exact if_neg (absent.2.2 core)

theorem once_after {m : Move cfg} (allowed : v.Allows m) (placed : v.Placed) (id : Fin cfg.threads) :
    (v.after m).weight (.app id) ≤ 1 := by
  have balance := weight_after allowed id
  have once := placed.once id
  by_cases arrived : m = .arrive id
  · subst arrived
    have := weight_absent (v := v) allowed
    simp [arrivals] at balance
    omega
  · have : arrivals id m = 0 := by
      cases m <;> simp_all [arrivals]
    omega

namespace Tidy

theorem note (tidy : v.Tidy) (event : Event cfg) : (v.note event).Tidy :=
  ⟨tidy.idleReady, tidy.idleRoom, tidy.idleCore, tidy.named⟩

theorem append (tidy : v.Tidy) (id : Fin cfg.threads) : (v.append (.app id)).Tidy where
  idleReady := by simpa using tidy.idleReady
  idleRoom := tidy.idleRoom
  idleCore := tidy.idleCore
  named := tidy.named

theorem switch (tidy : v.Tidy) (core : Fin cfg.cores) : (v.switch core).Tidy where
  idleReady other member := tidy.idleReady other (List.mem_of_mem_tail (by simpa using member))
  idleRoom := by simpa using tidy.idleRoom
  idleCore := by
    intro this other active
    by_cases same : this = core
    · subst same
      cases ready : v.ready with
      | nil => simpa [ready, eq_comm] using active
      | cons next rest =>
        simp only [switch_life, ready, List.head?_cons, Option.getD_some, Function.update_self,
          Option.some.injEq] at active
        exact absurd (by simp [ready, active]) (tidy.idleReady other)
    · exact tidy.idleCore this other (by simpa [same] using active)
  named := by simpa using tidy.named

theorem join (tidy : v.Tidy) (w : Waitingroom cfg) (id : Fin cfg.threads) :
    (v.join w (.app id)).Tidy where
  idleReady := tidy.idleReady
  idleRoom := by
    intro core other
    by_cases same : other = w <;> simp [same, tidy.idleRoom]
  idleCore := tidy.idleCore
  named := by
    intro x other names
    by_cases moved : x = .app id
    · subst moved
      obtain rfl : w = other := by simpa using names
      simp
    · have member := tidy.named x other (by simpa [moved] using names)
      by_cases same : other = w
      · subst same; simp [member]
      · simpa [same] using member

theorem wake (tidy : v.Tidy) (first : (v.waiting w).head? = some that) :
    (v.wake w that).Tidy := by
  obtain ⟨rest, waiting⟩ := List.head?_eq_some_iff.mp first
  constructor
  · intro core member
    rcases List.mem_append.mp member with here | came
    · exact tidy.idleReady core here
    · exact tidy.idleRoom core w (by simp_all)
  · intro core other member
    by_cases same : other = w
    · subst same
      exact tidy.idleRoom core other (List.mem_of_mem_tail (by simpa using member))
    · exact tidy.idleRoom core other (by simpa [same] using member)
  · exact tidy.idleCore
  · intro x other names
    by_cases moved : x = that
    · simp [moved] at names
    · have member := tidy.named x other (by simpa [moved] using names)
      by_cases same : other = w
      · subst same
        simp_all
      · simpa [same] using member

theorem kill (tidy : v.Tidy) (id : Fin cfg.threads) : (v.after (.kill id)).Tidy where
  idleReady core member := tidy.idleReady core (List.mem_of_mem_erase member)
  idleRoom := tidy.idleRoom
  idleCore := tidy.idleCore
  named := by
    intro x w names
    by_cases same : x = .app id
    · simp [after, same] at names
    · exact tidy.named x w (by simpa [after, same] using names)

theorem after (tidy : v.Tidy) {m : Move cfg} (allowed : v.Allows m) : (v.after m).Tidy := by
  cases m with
  | arrive id => exact (tidy.note _).append id
  | start core => exact tidy.switch core
  | yield core id => exact (tidy.append id).switch core
  | abandon core that => exact tidy.switch core
  | leave core that => exact (tidy.note _).switch core
  | wait core w id => exact (tidy.join w id).switch core
  | pass sem that => exact ⟨tidy.idleReady, tidy.idleRoom, tidy.idleCore, tidy.named⟩
  | increment sem count => exact ⟨tidy.idleReady, tidy.idleRoom, tidy.idleCore, tidy.named⟩
  | hand sem that => exact (tidy.note _).wake allowed.1
  | ring w that => exact tidy.wake allowed.1
  | kill id => exact tidy.kill id

end Tidy

theorem Placed.note (placed : v.Placed) (event : Event cfg) : (v.note event).Placed where
  toTidy := placed.toTidy.note event
  once id := by rw [weight_note]; exact placed.once id

theorem Placed.after {m : Move cfg} (placed : v.Placed) (allowed : v.Allows m) :
    (v.after m).Placed where
  toTidy := placed.toTidy.after allowed
  once := once_after allowed placed

end Threads
end MPStuBS
