import MPStuBS.KernelRun
import MPStuBS.QueueFamily

/-! What the kernel operations rely on in the ready list and the waiting rooms, as
laws about the lists these hold. The pointers of the source satisfy the laws. -/
namespace MPStuBS

variable {cfg : Config}

open ThreadQueues

/-- The laws hold for valid queues and, where a thread is put into a queue, for one
that is in none. -/
class LawfulThreadQueues (cfg : outParam Config) (Q : Type) [ThreadQueues cfg Q] where
  Valid : Q → Prop
  readyNodup : ∀ {q : Q}, Valid q → (ready q).Nodup
  roomNodup : ∀ {q : Q}, Valid q → ∀ w, (waiting q w).Nodup
  readyApart : ∀ {q : Q}, Valid q → ∀ that w, that ∈ ready q → that ∉ waiting q w
  roomApart : ∀ {q : Q}, Valid q → ∀ that v w,
    that ∈ waiting q v → that ∈ waiting q w → v = w
  readyEnqueue_spec : ∀ {q : Q}, Valid q → ∀ that,
    that ∉ ready q → (∀ w, that ∉ waiting q w) → Valid (readyEnqueue q that) ∧
      ready (readyEnqueue q that) = ready q ++ [that] ∧ waiting (readyEnqueue q that) = waiting q
  readyDequeue_spec : ∀ {q : Q}, Valid q → ∃ after,
    readyDequeue q = ((ready q).head?, after) ∧ Valid after ∧
      ready after = (ready q).tail ∧ waiting after = waiting q
  readyRemove_spec : ∀ {q : Q}, Valid q → ∀ that, ∃ after,
    readyRemove q that = some (if that ∈ ready q then some that else none, after) ∧ Valid after ∧
      ready after = (ready q).erase that ∧ waiting after = waiting q
  roomNew_spec : ∀ {q : Q}, Valid q → ∀ w, Valid (roomNew q w) ∧
    ready (roomNew q w) = ready q ∧ waiting (roomNew q w) = Function.update (waiting q) w []
  roomEnqueue_spec : ∀ {q : Q}, Valid q → ∀ w that,
    that ∉ ready q → (∀ w, that ∉ waiting q w) → Valid (roomEnqueue q w that) ∧
      ready (roomEnqueue q w that) = ready q ∧
      waiting (roomEnqueue q w that) = Function.update (waiting q) w (waiting q w ++ [that])
  roomDequeue_spec : ∀ {q : Q}, Valid q → ∀ w, ∃ after,
    roomDequeue q w = ((waiting q w).head?, after) ∧ Valid after ∧
      ready after = ready q ∧ waiting after = Function.update (waiting q) w (waiting q w).tail
  roomRemove_spec : ∀ {q : Q}, Valid q → ∀ w that, ∃ after,
    roomRemove q w that = some (if that ∈ waiting q w then some that else none, after) ∧
      Valid after ∧ ready after = ready q ∧
      waiting after = Function.update (waiting q) w ((waiting q w).erase that)

namespace Pointers

variable {q : Pointers cfg}

/-- The ready list and the rooms as one family of queues. -/
def queues (q : Pointers cfg) : Option (Waitingroom cfg) → Queue (Thread cfg)
  | none => q.readylist
  | some w => q.room w

def lists (q : Pointers cfg) : Option (Waitingroom cfg) → List (Thread cfg)
  | none => ready q
  | some w => waiting q w

def Valid (q : Pointers cfg) : Prop := Family q.links q.queues q.lists

@[simp] theorem queues_setReady (readylist : Queue (Thread cfg)) (links : Links (Thread cfg)) :
    (q.setReady readylist links).queues = Function.update q.queues none readylist := by
  funext i
  cases i <;> simp [queues, setReady]

@[simp] theorem queues_setRoom (w : Waitingroom cfg) (room : Queue (Thread cfg))
    (links : Links (Thread cfg)) :
    (q.setRoom w room links).queues = Function.update q.queues (some w) room := by
  funext i
  cases i with
  | none => simp [queues, setRoom]
  | some other => by_cases h : other = w <;> simp [queues, setRoom, h]

/-- A chain through threads is shorter than the fuel, so the walk reads all of it. -/
theorem lists_eq {nodes : Option (Waitingroom cfg) → List (Thread cfg)}
    (family : Family q.links q.queues nodes) : q.lists = nodes := by
  funext i
  have bound : (nodes i).length ≤ fuel cfg := by
    have := (family.nodup i).length_le_card
    simp only [card_thread] at this
    simp only [fuel]; omega
  cases i <;> exact (family.rep _).chain.walk_eq bound

theorem valid_of {nodes : Option (Waitingroom cfg) → List (Thread cfg)}
    (family : Family q.links q.queues nodes) : q.Valid ∧ q.lists = nodes := by
  have eq := lists_eq family
  exact ⟨by rw [Valid, eq]; exact family, eq⟩

theorem valid_new (cfg : Config) : (Pointers.new : Pointers cfg).Valid ∧
    (Pointers.new : Pointers cfg).lists = fun _ => [] := by
  apply valid_of
  have queues : (Pointers.new : Pointers cfg).queues = fun _ => .new := by
    funext i
    cases i <;> rfl
  rw [queues]
  exact Family.new _

theorem valid_setReady {readylist : Queue (Thread cfg)} {links : Links (Thread cfg)}
    {nodes : List (Thread cfg)} (family : Family links (Function.update q.queues none readylist)
      (Function.update q.lists none nodes)) :
    (q.setReady readylist links).Valid ∧ ready (q.setReady readylist links) = nodes ∧
      waiting (q.setReady readylist links) = waiting q := by
  rw [← queues_setReady readylist links] at family
  obtain ⟨valid, eq⟩ := valid_of (q := q.setReady readylist links) family
  refine ⟨valid, (congrFun eq none).trans (by simp), ?_⟩
  funext w
  exact (congrFun eq (some w)).trans (by simp [lists])

theorem valid_setRoom {w : Waitingroom cfg} {room : Queue (Thread cfg)}
    {links : Links (Thread cfg)} {nodes : List (Thread cfg)}
    (family : Family links (Function.update q.queues (some w) room)
      (Function.update q.lists (some w) nodes)) :
    (q.setRoom w room links).Valid ∧ ready (q.setRoom w room links) = ready q ∧
      waiting (q.setRoom w room links) = Function.update (waiting q) w nodes := by
  rw [← queues_setRoom w room links] at family
  obtain ⟨valid, eq⟩ := valid_of (q := q.setRoom w room links) family
  refine ⟨valid, (congrFun eq none).trans (by simp [lists]), ?_⟩
  funext other
  apply (congrFun eq (some other)).trans
  by_cases same : other = w <;> simp [same, lists]

theorem length_lt_fuel (valid : q.Valid) (i : Option (Waitingroom cfg)) :
    (q.lists i).length < fuel cfg := by
  have := (valid.nodup i).length_le_card
  simp only [card_thread] at this
  simp only [fuel]; omega

theorem absent_lists {that : Thread cfg} (notReady : that ∉ ready q)
    (notWaiting : ∀ w, that ∉ waiting q w) : ∀ i, that ∉ q.lists i
  | none => notReady
  | some w => notWaiting w

instance : LawfulThreadQueues cfg (Pointers cfg) where
  Valid := Valid
  readyNodup valid := valid.nodup none
  roomNodup valid w := valid.nodup (some w)
  readyApart valid that w here there := by
    have := valid.apart none (some w) that here there; simp at this
  roomApart valid that v w here there := by
    have := valid.apart (some v) (some w) that here there; simpa using this
  readyEnqueue_spec valid that notReady notWaiting :=
    have family := Family.enqueue (i := none) valid (absent_lists notReady notWaiting)
    valid_setReady family
  readyDequeue_spec {q} valid := by
    obtain ⟨after, links, eq, family⟩ := Family.dequeue valid (i := none)
    refine ⟨_, ?_, valid_setReady family⟩
    simp only [readyDequeue, show q.readylist.dequeue q.links = _ from eq]; rfl
  readyRemove_spec {q} valid that := by
    obtain ⟨after, links, eq, family⟩ := Family.remove (i := none) valid (length_lt_fuel valid _) that
    refine ⟨_, ?_, valid_setReady family⟩
    simp only [readyRemove, show q.readylist.remove (fuel cfg) q.links that = _ from eq]; rfl
  roomNew_spec valid w := valid_setRoom (Family.renew valid)
  roomEnqueue_spec valid w that notReady notWaiting :=
    have family := Family.enqueue (i := some w) valid (absent_lists notReady notWaiting)
    valid_setRoom family
  roomDequeue_spec {q} valid w := by
    obtain ⟨after, links, eq, family⟩ := Family.dequeue (i := some w) valid
    refine ⟨_, ?_, valid_setRoom family⟩
    simp only [roomDequeue, show (q.room w).dequeue q.links = _ from eq]; rfl
  roomRemove_spec {q} valid w that := by
    obtain ⟨after, links, eq, family⟩ :=
      Family.remove (i := some w) valid (length_lt_fuel valid _) that
    refine ⟨_, ?_, valid_setRoom family⟩
    simp only [roomRemove, show (q.room w).remove (fuel cfg) q.links that = _ from eq]; rfl

end Pointers
end MPStuBS
