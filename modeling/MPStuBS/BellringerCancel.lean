import MPStuBS.BellringerTiming

/-! What `cancel` does to a queue of bells, whose counters may be zero or have wrapped. -/
namespace MPStuBS.Bellringer

variable {bells : Nat}

section Ringing

/-- How many checks the first bell waits with this counter: zero wraps. -/
def ticks (ms : Nat) : Nat := if ms = 0 then 2 ^ 32 else ms

/-- The number of checks after which each bell of a queue rings. -/
def due (ms : Fin bells → Nat) : List (Fin bells) → Alarm bells
  | [] => fun _ => none
  | first :: rest => remaining (Function.update ms first (ticks (ms first))) (first :: rest)

/-- The bells that the check after `k` others rings. -/
def ringing (s : Bellringer bells) : Nat → List (Fin bells)
  | 0 =>
    match s.check with
    | none => []
    | some (_, rung) => rung
  | k + 1 =>
    match s.check with
    | none => []
    | some (next, _) => ringing next k

variable {s : Bellringer bells} {nodes : List (Fin bells)}

theorem minus_lt (a b : Nat) : minus a b < 2 ^ 32 := Nat.mod_lt _ (Nat.two_pow_pos 32)

theorem bounded_update {bell : Fin bells} {value : Nat} (bound : ∀ x, s.ms x < 2 ^ 32) (small : value < 2 ^ 32) (x : Fin bells) :
    Function.update s.ms bell value x < 2 ^ 32 := by
  rw [Function.update_apply]
  split
  · exact small
  · exact bound x

theorem ticks_pos (ms : Nat) : 0 < ticks ms := by
  unfold ticks
  split <;> omega

theorem ticks_eq {ms : Nat} (bound : ms < 2 ^ 32) : ticks ms = minus ms 1 + 1 := by
  unfold ticks minus
  split <;> omega

/-- The loop takes the bells at the front whose counters are zero. -/
theorem ringDue_spec (rep : Queue.Rep s.links s.queue nodes) {fuel : Nat} (enough : nodes.length < fuel) :
    ∃ after rung rest, s.ringDue fuel = some (after, rung) ∧ nodes = rung ++ rest ∧
      Queue.Rep after.links after.queue rest ∧ after.ms = s.ms ∧ (∀ x ∈ rung, s.ms x = 0) ∧
      ∀ first ∈ rest.head?, s.ms first ≠ 0 := by
  induction nodes generalizing s fuel with
  | nil =>
    have empty : s.queue.first = none := rep.head_eq
    refine ⟨s, [], [], ringDue_later enough (by simp [empty]), rfl, rep, rfl, by simp, by simp⟩
  | cons first rest ih =>
    obtain ⟨fuel, rfl⟩ : ∃ k, fuel = k + 1 := ⟨fuel - 1, by omega⟩
    have head : s.queue.first = some first := rep.head_eq
    by_cases zero : s.ms first = 0
    · obtain ⟨queue, dequeued, rep⟩ := Queue.dequeue_cons rep
      obtain ⟨after, rung, left, ran, split, rep, same, zeroes, later⟩ :=
        ih (s := { s with queue := queue, links := Function.update s.links first none }) rep
          (show rest.length < fuel by simpa using enough)
      refine ⟨after, first :: rung, left, ?_, by rw [split]; rfl, rep, same, ?_, later⟩
      · simp [ringDue, head, zero, dequeued, ran]
      · intro x member
        rcases List.mem_cons.mp member with rfl | inside
        · exact zero
        · exact zeroes x inside
    · have waits : ∀ other, s.queue.first = some other → s.ms other ≠ 0 := by
        intro other here
        obtain rfl := Option.some.inj (head.symm.trans here)
        exact zero
      refine ⟨s, [], first :: rest, ringDue_later (Nat.zero_lt_of_lt enough) waits, rfl, rep, rfl, by simp, ?_⟩
      simpa using zero

theorem remaining_zeroes {ms : Fin bells → Nat} {rung rest : List (Fin bells)} (zeroes : ∀ x ∈ rung, ms x = 0)
    (bell : Fin bells) :
    remaining ms (rung ++ rest) bell = if bell ∈ rung then some 0 else remaining ms rest bell := by
  induction rung with
  | nil => simp
  | cons node rung ih =>
    have zero := zeroes node List.mem_cons_self
    have later := ih fun x member => zeroes x (List.mem_cons_of_mem _ member)
    rw [List.cons_append, remaining, later, zero]
    by_cases same : bell = node
    · simp [same]
    · by_cases inside : bell ∈ rung
      · simp [same, inside]
      · simp [same, inside]

/-- A tick makes every bell wait one check less. -/
theorem due_eq {ms : Fin bells → Nat} {first : Fin bells} {rest : List (Fin bells)} (apart : first ∉ rest)
    (bound : ms first < 2 ^ 32) (bell : Fin bells) : due ms (first :: rest) bell =
      (remaining (Function.update ms first (minus (ms first) 1)) (first :: rest) bell).map (· + 1) := by
  have same : ∀ value, remaining (Function.update ms first value) rest = remaining ms rest := by
    intro value
    refine remaining_congr fun x member => Function.update_of_ne ?_ _ _
    rintro rfl
    exact apart member
  simp only [due, remaining, same, Function.update_self, ticks_eq bound]
  by_cases head : bell = first
  · simp only [if_pos head, Option.map_some]
  · simp only [if_neg head, Option.map_map, Function.comp_def, Nat.add_assoc]

theorem due_of_later {ms : Fin bells → Nat} (later : ∀ first ∈ nodes.head?, ms first ≠ 0) :
    due ms nodes = remaining ms nodes := by
  cases nodes with
  | nil => rfl
  | cons first rest =>
    have nonzero := later first rfl
    rw [due, ticks, if_neg nonzero, Function.update_eq_self]

theorem remaining_ne_zero {ms : Fin bells → Nat} (later : ∀ first ∈ nodes.head?, ms first ≠ 0) (bell : Fin bells) :
    remaining ms nodes bell ≠ some 0 := by
  cases nodes with
  | nil => nofun
  | cons first rest =>
    have nonzero := later first rfl
    unfold remaining
    split
    · simpa using nonzero
    · intro zero
      obtain ⟨left, -, sum⟩ := Option.map_eq_some_iff.mp zero
      omega

/-- A check rings the bells that are due in one, and the others wait one check less. -/
theorem check_spec (rep : Queue.Rep s.links s.queue nodes) (bound : ∀ x, s.ms x < 2 ^ 32) :
    ∃ after rung rest, s.check = some (after, rung) ∧ Queue.Rep after.links after.queue rest ∧
      (∀ x, after.ms x < 2 ^ 32) ∧ (∀ x, x ∈ rung ↔ due s.ms nodes x = some 1) ∧
      ∀ x k, due after.ms rest x = some (k + 1) ↔ due s.ms nodes x = some (k + 2) := by
  cases nodes with
  | nil =>
    have empty : s.queue.first = none := rep.head_eq
    exact ⟨s, [], [], by simp [check, empty], rep, bound, by simp [due], by simp [due]⟩
  | cons first rest =>
    have head : s.queue.first = some first := rep.head_eq
    have apart := (List.nodup_cons.mp rep.nodup).1
    have eq := due_eq apart (bound first)
    have short : (first :: rest).length < bells + 1 := by
      have few := rep.nodup.length_le_card
      rw [Fintype.card_fin] at few
      omega
    obtain ⟨after, rung, left, ran, split, rep', same, zeroes, later⟩ :=
      ringDue_spec (s := { s with ms := Function.update s.ms first (minus (s.ms first) 1) }) rep short
    have nodup := rep.nodup
    rw [split, List.nodup_append] at nodup
    dsimp only at same zeroes later
    rw [split] at eq
    simp only [remaining_zeroes zeroes] at eq
    refine ⟨after, rung, left, by simp [check, head, ran], rep', fun x => ?_, fun x => ?_, fun x k => ?_⟩
    · rw [same]
      exact bounded_update bound (minus_lt _ _) x
    · rw [split, eq]
      by_cases inside : x ∈ rung
      · simp [inside]
      · simpa [inside] using remaining_ne_zero later x
    · rw [same, due_of_later later, split, eq]
      by_cases inside : x ∈ rung
      · have outside : x ∉ left := fun member => nodup.2.2 x inside x member rfl
        simp [inside, remaining_none outside]
      · simp [inside]

theorem mem_ringing (rep : Queue.Rep s.links s.queue nodes) (bound : ∀ x, s.ms x < 2 ^ 32) (bell : Fin bells)
    (k : Nat) : bell ∈ s.ringing k ↔ due s.ms nodes bell = some (k + 1) := by
  induction k generalizing s nodes with
  | zero =>
    obtain ⟨after, rung, rest, ran, -, -, rings, -⟩ := check_spec rep bound
    rw [ringing, ran]
    exact rings bell
  | succ k ih =>
    obtain ⟨after, rung, rest, ran, rep', bound', -, waits⟩ := check_spec rep bound
    rw [ringing, ran]
    exact (ih rep' bound').trans (waits bell k)

end Ringing

section Cancel

variable {s : Bellringer bells} {nodes rest : List (Fin bells)} {bell next current : Fin bells}

/-- `cancel` terminates, the bell is gone and never rings, and all other bells ring as if nothing had happened. -/
def Cancels (s : Bellringer bells) (bell : Fin bells) : Prop :=
  ∃ fuel after, s.cancel fuel bell = some after ∧ bell ∉ after.queued ∧ (∀ k, bell ∉ after.ringing k) ∧
    ∀ other ∈ s.queued, other ≠ bell → ∀ k, other ∈ after.ringing k ↔ other ∈ s.ringing k

/-- The next bell can take the counter of the first without wrapping to another time. -/
def Adds (first next : Nat) : Prop := first ≠ 0 ∧ first + next ≤ 2 ^ 32 ∨ first = 0 ∧ next = 0

instance (first next : Nat) : Decidable (Adds first next) := inferInstanceAs (Decidable (_ ∨ _))

theorem adds_iff {first next : Nat} (small : first < 2 ^ 32) (bound : next < 2 ^ 32) :
    Adds first next ↔ ticks ((next + first) % 2 ^ 32) = next + ticks first := by
  unfold Adds ticks
  by_cases zero : first = 0
  · simp only [zero, Nat.add_zero, Nat.mod_eq_of_lt bound]
    split <;> simp_all
  · split <;> omega

theorem cancelFrom_endless (other : current ≠ bell) (fuel : Nat) : cancelFrom bell fuel (some current) = none := by
  induction fuel with
  | zero => rfl
  | succ fuel ih => rwa [cancelFrom, if_neg other]

theorem cancel_endless (rep : Queue.Rep s.links s.queue (current :: rest)) (other : current ≠ bell) (fuel : Nat) :
    s.cancel fuel bell = none := by
  have head : s.queue.head = some current := rep.head_eq
  simp only [cancel, head, cancelFrom_endless other]

theorem cancel_nil (rep : Queue.Rep s.links s.queue []) (fuel : Nat) : s.cancel (fuel + 1) bell = some s := by
  have head : s.queue.head = none := rep.head_eq
  simp only [cancel, head, cancelFrom]

/-- A bell that is alone stays in the queue. -/
theorem cancel_single (rep : Queue.Rep s.links s.queue [bell]) (fuel : Nat) :
    s.cancel fuel bell = none ∨ s.cancel fuel bell = some s := by
  obtain ⟨head, ends⟩ := rep.chain
  cases fuel with
  | zero => exact .inl (by simp only [cancel, cancelFrom])
  | succ fuel => exact .inr (by simp only [cancel, head, cancelFrom, if_true, show s.links bell = none from ends])

theorem cancel_first (rep : Queue.Rep s.links s.queue (bell :: next :: rest)) (fuel : Nat) :
    s.cancel fuel bell = none ∨ ∃ after, s.cancel fuel bell = some after ∧
      Queue.Rep after.links after.queue (next :: rest) ∧
      after.ms = Function.update s.ms next ((s.ms next + s.ms bell) % 2 ^ 32) := by
  obtain ⟨head, follows, -⟩ := rep.chain
  cases fuel with
  | zero => exact .inl (by simp only [cancel, cancelFrom])
  | succ fuel =>
    obtain ⟨unlinked, -⟩ := Queue.unlink_rep (show Queue.Rep s.links s.queue ([] ++ bell :: next :: rest) from rep)
    let removed := s.queue.unlink s.links bell .head
    let ms := Function.update s.ms next ((s.ms next + s.ms bell) % 2 ^ 32)
    refine .inr ⟨⟨removed.2, ms, removed.1⟩, ?_, unlinked, rfl⟩
    simp only [cancel, head, cancelFrom, if_true, follows, Queue.remove, Queue.removeFrom_found, Option.map_some]
    rfl

/-- The times of the bells behind a first one that is cancelled. -/
theorem due_cancel {ms : Fin bells → Nat} (nodup : (bell :: next :: rest).Nodup) {other : Fin bells}
    (apart : other ≠ bell) (sum : ticks ((ms next + ms bell) % 2 ^ 32) = ms next + ticks (ms bell)) :
    due (Function.update ms next ((ms next + ms bell) % 2 ^ 32)) (next :: rest) other =
      due ms (bell :: next :: rest) other := by
  obtain ⟨outside, nodup⟩ := List.nodup_cons.mp nodup
  have notNext : next ≠ bell := fun same => outside (same ▸ List.mem_cons_self)
  have behind : ∀ x ∈ rest, x ≠ next ∧ x ≠ bell := by
    intro x member
    constructor
    · rintro rfl
      exact (List.nodup_cons.mp nodup).1 member
    · rintro rfl
      exact outside (List.mem_cons_of_mem _ member)
  have after : ∀ m n, remaining (Function.update (Function.update ms next m) next n) rest = remaining ms rest :=
    fun m n => remaining_congr fun x member => by
      rw [Function.update_of_ne (behind x member).1, Function.update_of_ne (behind x member).1]
  have before : ∀ m, remaining (Function.update ms bell m) rest = remaining ms rest :=
    fun m => remaining_congr fun x member => Function.update_of_ne (behind x member).2 _ _
  simp only [due, remaining, Function.update_self, apart, if_false, Function.update_of_ne notNext, sum, after, before]
  by_cases isNext : other = next
  · simp only [if_pos isNext, Option.map_some]
  · simp only [if_neg isNext, Option.map_map, Function.comp_def, Nat.add_assoc]

/-- `cancel` works on an empty queue, and on the first of several bells unless the next one's counter
wraps to another time. -/
theorem cancels_iff (rep : Queue.Rep s.links s.queue nodes) (bound : ∀ x, s.ms x < 2 ^ 32) :
    s.Cancels bell ↔ nodes = [] ∨ ∃ next rest, nodes = bell :: next :: rest ∧ Adds (s.ms bell) (s.ms next) := by
  constructor
  · rintro ⟨fuel, after, cancelled, gone, -, others⟩
    rw [queued_eq rep] at others
    cases nodes with
    | nil => exact .inl rfl
    | cons current rest =>
      obtain rfl : bell = current := by
        by_contra other
        rw [cancel_endless rep (Ne.symm other)] at cancelled
        cases cancelled
      cases rest with
      | nil =>
        obtain endless | same := cancel_single rep fuel
        · rw [endless] at cancelled
          cases cancelled
        · rw [same, Option.some.injEq] at cancelled
          rw [← cancelled, queued_eq rep] at gone
          exact absurd List.mem_cons_self gone
      | cons next rest =>
        refine .inr ⟨next, rest, rfl, ?_⟩
        obtain endless | ⟨after', same, rep', times⟩ := cancel_first rep fuel
        · rw [endless] at cancelled
          cases cancelled
        obtain rfl := Option.some.inj (cancelled.symm.trans same)
        have notNext : next ≠ bell := fun same => (List.nodup_cons.mp rep.nodup).1 (same ▸ List.mem_cons_self)
        have waits : due s.ms (bell :: next :: rest) next = some (s.ms next + ticks (s.ms bell)) := by
          simp [due, remaining, notNext]
        have positive := ticks_pos (s.ms bell)
        obtain ⟨k, sum⟩ : ∃ k, s.ms next + ticks (s.ms bell) = k + 1 := ⟨s.ms next + ticks (s.ms bell) - 1, by omega⟩
        have rings := (others next (by simp) notNext k).mpr ((mem_ringing rep bound next k).mpr (sum ▸ waits))
        rw [mem_ringing rep' (times ▸ bounded_update bound (Nat.mod_lt _ (Nat.two_pow_pos 32))), times, ← sum] at rings
        rw [adds_iff (bound bell) (bound next)]
        simpa [due, remaining] using rings
  · rintro (rfl | ⟨next, rest, rfl, adds⟩)
    · refine ⟨1, s, cancel_nil rep 0, ?_, fun k => ?_, fun other _ _ k => Iff.rfl⟩
      · rw [queued_eq rep]
        exact List.not_mem_nil
      · rw [mem_ringing rep bound]
        simp [due]
    · obtain ⟨outside, -⟩ := List.nodup_cons.mp rep.nodup
      obtain endless | ⟨after, cancelled, rep', times⟩ := cancel_first rep 1
      · simp [cancel, rep.chain.1, cancelFrom, rep.chain.2.1, Queue.remove, Queue.removeFrom] at endless
      have bound' : ∀ x, after.ms x < 2 ^ 32 := times ▸ bounded_update bound (Nat.mod_lt _ (Nat.two_pow_pos 32))
      have sum := (adds_iff (bound bell) (bound next)).mp adds
      refine ⟨1, after, cancelled, ?_, fun k => ?_, fun other _ apart k => ?_⟩
      · rwa [queued_eq rep']
      · rw [mem_ringing rep' bound', due, remaining_none outside]
        exact (Option.some_ne_none _).symm
      · rw [mem_ringing rep' bound', mem_ringing rep bound, times, due_cancel rep.nodup apart sum]

end Cancel

section Reachable

/-- A bell that is in no queue is given to `job`, whatever its own counter is, or `check` is called. -/
inductive Use (bells : Nat) where
  | job (bell : Fin bells) (own ms : Nat)
  | check
  deriving DecidableEq, Repr

def use (s : Bellringer bells) : Use bells → Option (Bellringer bells)
  | .job bell own ms =>
    if bell ∉ s.queued ∧ own < 2 ^ 32 ∧ ms < 2 ^ 32 then (s.construct bell own).job bell ms else none
  | .check => s.check.map Prod.fst

/-- The queue is intact, and no counter is larger than an `unsigned int`. -/
def Intact (s : Bellringer bells) : Prop :=
  (∃ nodes, Queue.Rep s.links s.queue nodes) ∧ ∀ bell, s.ms bell < 2 ^ 32

variable {s after : Bellringer bells} {nodes : List (Fin bells)} {bell : Fin bells}

theorem jobFrom_intact (rep : Queue.Rep s.links s.queue nodes) (bound : ∀ x, s.ms x < 2 ^ 32) (fresh : bell ∉ nodes)
    (fuel : Nat) : ∀ {ms before current}, before ∈ nodes → (∀ x ∈ current, x ∈ nodes) →
      s.jobFrom bell fuel ms before current = some after → after.Intact := by
  induction fuel with
  | zero =>
    intro ms before current _ _ ran
    cases ran
  | succ fuel ih =>
    intro ms before current member inside ran
    cases current with
    | none =>
      cases ran
      exact ⟨⟨nodes, rep⟩, bound⟩
    | some current =>
      have here := inside current rfl
      rw [jobFrom] at ran
      split at ran
      · refine ih here (fun x follows => ?_) ran
        obtain ⟨front, back, rfl⟩ := List.append_of_mem here
        obtain ⟨_, -, rfl, right⟩ := Chain.seg_append.mp rep.chain
        cases back with
        | nil =>
          rw [show s.links current = none from right] at follows
          cases follows
        | cons next rest =>
          rw [right.1] at follows
          cases follows
          simp
      · cases ran
        obtain ⟨front, back, rfl⟩ := List.append_of_mem member
        exact ⟨⟨_, Queue.insertAfter_rep rep fresh⟩, bounded_update bound (minus_lt _ _)⟩

theorem job_intact (rep : Queue.Rep s.links s.queue nodes) (bound : ∀ x, s.ms x < 2 ^ 32) (fresh : bell ∉ nodes) {ms : Nat}
    (ran : s.job bell ms = some after) : after.Intact := by
  unfold job at ran
  cases head : s.queue.first with
  | none =>
    rw [head] at ran
    cases ran
    exact ⟨⟨_, Queue.insertFirst_rep rep fresh⟩, bound⟩
  | some first =>
    rw [head] at ran
    dsimp only at ran
    split at ran
    · cases ran
      exact ⟨⟨_, Queue.insertFirst_rep rep fresh⟩, bounded_update bound (minus_lt _ _)⟩
    · have inside : first ∈ nodes := List.mem_of_mem_head? (rep.head_eq.symm.trans head)
      exact jobFrom_intact rep bound fresh _ inside (by simpa using inside) ran

theorem use_intact (intact : s.Intact) (u : Use bells) (used : s.use u = some after) : after.Intact := by
  obtain ⟨⟨nodes, rep⟩, bound⟩ := intact
  cases u with
  | job bell own ms =>
    simp only [use, Option.ite_none_right_eq_some] at used
    obtain ⟨⟨fresh, small, -⟩, ran⟩ := used
    rw [queued_eq rep] at fresh
    have rep' : Queue.Rep (s.construct bell own).links s.queue nodes :=
      rep.frame fun x member => Function.update_of_ne (by rintro rfl; exact fresh member) _ _
    exact job_intact rep' (bounded_update bound small) fresh ran
  | check =>
    obtain ⟨⟨next, rung⟩, checked, rfl⟩ := Option.map_eq_some_iff.mp used
    obtain ⟨next', _, rest, checked', rep', bound', -⟩ := check_spec rep bound
    rw [checked, Option.some.injEq] at checked'
    cases checked'
    exact ⟨⟨rest, rep'⟩, bound'⟩

theorem reachable_intact (uses : List (Use bells)) (run : Run.exec use new uses = some s) : s.Intact :=
  Run.invariant Intact (fun _ u _ intact used => use_intact intact u used) run
    ⟨⟨[], Queue.rep_new _⟩, fun _ => Nat.two_pow_pos 32⟩

theorem Intact.cancels_iff (intact : s.Intact) (bell : Fin bells) : s.Cancels bell ↔
    s.queued = [] ∨ ∃ next rest, s.queued = bell :: next :: rest ∧ Adds (s.ms bell) (s.ms next) := by
  obtain ⟨⟨nodes, rep⟩, bound⟩ := intact
  rw [queued_eq rep]
  exact Bellringer.cancels_iff rep bound

/-- In every state that job and check lead to, `cancel` does what it is for exactly if the queue is empty, or
the bell is the first of several and the next one's counter can take its own. -/
theorem cancel_reachable_iff (uses : List (Use bells)) (s : Bellringer bells) (run : Run.exec use new uses = some s)
    (bell : Fin bells) : s.Cancels bell ↔
      s.queued = [] ∨ ∃ next rest, s.queued = bell :: next :: rest ∧ Adds (s.ms bell) (s.ms next) :=
  (reachable_intact uses run).cancels_iff bell

/-- Bell 1 rings before bell 0. -/
theorem cancel_first_of_two : ∃ s : Bellringer 2,
    Run.exec use new [.job 0 5 5, .check, .job 1 3 3] = some s ∧ s.Cancels 1 := by
  refine ⟨_, rfl, (cancel_reachable_iff [.job 0 5 5, .check, .job 1 3 3] _ rfl 1).mpr (.inr ⟨0, [], rfl, ?_⟩)⟩
  decide

/-- The search for the second bell does not end. -/
theorem cancel_second_endless : ∃ s : Bellringer 2,
    Run.exec use new [.job 0 5 5, .check, .job 1 3 3] = some s ∧ 0 ∈ s.queued ∧
      (∀ fuel, s.cancel fuel 0 = none) ∧ ¬ s.Cancels 0 := by
  obtain ⟨s, run, order⟩ : ∃ s : Bellringer 2,
      Run.exec use new [.job 0 5 5, .check, .job 1 3 3] = some s ∧ s.queued = [1, 0] := ⟨_, rfl, by decide⟩
  have intact := reachable_intact _ run
  refine ⟨s, run, by simp [order], fun fuel => ?_, ?_⟩
  · obtain ⟨⟨nodes, rep⟩, -⟩ := intact
    obtain rfl : [1, 0] = nodes := order.symm.trans (queued_eq rep)
    exact cancel_endless rep (by decide) fuel
  · rw [intact.cancels_iff, order]
    rintro (empty | ⟨next, rest, order, -⟩)
    · cases empty
    · cases order

end Reachable

end MPStuBS.Bellringer
