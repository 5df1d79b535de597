import Mathlib.Logic.Function.Basic
import Mathlib.Data.Fintype.Card

/-! Singly linked chains through a next-pointer map. A chain is described by the
list of nodes it visits; a pointer write is a `Function.update`. -/
namespace MPStuBS.Chain

variable {α : Type}

/-- Following `next` from `start` visits exactly `nodes` and arrives at `stop`. -/
def Seg (next : α → Option α) : Option α → List α → Option α → Prop
  | start, [], stop => start = stop
  | start, node :: rest, stop => start = some node ∧ Seg next (next node) rest stop

@[simp] theorem seg_nil {next : α → Option α} {start stop : Option α} :
    Seg next start [] stop ↔ start = stop := Iff.rfl

@[simp] theorem seg_cons {next : α → Option α} {start stop : Option α} {node : α} {rest : List α} :
    Seg next start (node :: rest) stop ↔ start = some node ∧ Seg next (next node) rest stop := Iff.rfl

variable {next other : α → Option α} {start middle stop : Option α} {nodes more : List α} {node : α}

theorem seg_append : Seg next start (nodes ++ more) stop ↔
    ∃ middle, Seg next start nodes middle ∧ Seg next middle more stop := by
  induction nodes generalizing start with
  | nil => simp
  | cons node rest ih =>
    simp only [List.cons_append, seg_cons, ih]
    constructor
    · rintro ⟨here, middle, left, right⟩; exact ⟨middle, ⟨here, left⟩, right⟩
    · rintro ⟨middle, ⟨here, left⟩, right⟩; exact ⟨here, middle, left, right⟩

theorem seg_snoc : Seg next start (nodes ++ [node]) stop ↔
    Seg next start nodes (some node) ∧ next node = stop := by
  rw [seg_append]
  constructor
  · rintro ⟨middle, left, here, eq⟩; exact ⟨here ▸ left, eq⟩
  · rintro ⟨left, eq⟩; exact ⟨some node, left, rfl, eq⟩

/-- A chain only depends on the pointers of the nodes it visits. -/
theorem Seg.congr (same : ∀ x ∈ nodes, other x = next x) (seg : Seg next start nodes stop) :
    Seg other start nodes stop := by
  induction nodes generalizing start with
  | nil => exact seg
  | cons node rest ih =>
    refine ⟨seg.1, ?_⟩
    rw [same node List.mem_cons_self]
    exact ih (fun x member => same x (List.mem_cons_of_mem _ member)) seg.2

theorem Seg.update [DecidableEq α] {v : Option α} (apart : node ∉ nodes)
    (seg : Seg next start nodes stop) : Seg (Function.update next node v) start nodes stop :=
  seg.congr fun x member => Function.update_of_ne (fun eq => apart (by rw [← eq]; exact member)) _ _

/-- A chain that ends determines the nodes it visits. -/
theorem Seg.unique (left : Seg next start nodes none) (right : Seg next start more none) :
    nodes = more := by
  induction nodes generalizing start more with
  | nil =>
    cases more with
    | nil => rfl
    | cons node rest => exact absurd (left.symm.trans right.1) (by simp)
  | cons node rest ih =>
    cases more with
    | nil => exact absurd (right.symm.trans left.1) (by simp)
    | cons node' rest' =>
      obtain rfl : node = node' := Option.some.inj (left.1.symm.trans right.1)
      exact congrArg _ (ih left.2 right.2)

/-- No chain that ends visits a node twice: the tails after two visits of one node
would be the same list. -/
theorem Seg.nodup (seg : Seg next start nodes none) : nodes.Nodup := by
  induction nodes generalizing start with
  | nil => exact List.nodup_nil
  | cons node rest ih =>
    refine List.nodup_cons.mpr ⟨fun member => ?_, ih seg.2⟩
    obtain ⟨before, after, rfl⟩ := List.append_of_mem member
    obtain ⟨_, _, here, later⟩ := seg_append.mp seg.2
    have same := seg.2.unique later
    have := congrArg List.length same
    simp at this
    omega

theorem Seg.split (seg : Seg next start nodes none) (member : node ∈ nodes) :
    ∃ before after, nodes = before ++ node :: after ∧
      Seg next start before (some node) ∧ Seg next (next node) after none := by
  obtain ⟨before, after, rfl⟩ := List.append_of_mem member
  obtain ⟨_, left, rfl, right⟩ := seg_append.mp seg
  exact ⟨before, after, rfl, left, right⟩

/-- A chain that ends runs through every segment leaving its start. -/
theorem Seg.extend (part : Seg next start nodes middle) (whole : Seg next start more none) :
    ∃ rest, more = nodes ++ rest ∧ Seg next middle rest none := by
  induction nodes generalizing start more with
  | nil => exact ⟨more, rfl, part ▸ whole⟩
  | cons node tail ih =>
    obtain ⟨rfl, part⟩ := part
    cases more with
    | nil => cases whole
    | cons node' tail' =>
      obtain ⟨here, whole⟩ := whole
      obtain rfl := Option.some.inj here
      obtain ⟨rest, rfl, ends⟩ := ih part whole
      exact ⟨rest, rfl, ends⟩

/-- The nodes met in at most `fuel` steps. -/
def walk (next : α → Option α) : Nat → Option α → List α
  | 0, _ => []
  | _ + 1, none => []
  | fuel + 1, some node => node :: walk next fuel (next node)

theorem Seg.walk_eq {fuel : Nat} (seg : Seg next start nodes none) (enough : nodes.length ≤ fuel) :
    walk next fuel start = nodes := by
  induction nodes generalizing start fuel with
  | nil => rw [show start = none from seg]; cases fuel <;> rfl
  | cons node rest ih =>
    obtain ⟨fuel, rfl⟩ : ∃ k, fuel = k + 1 := ⟨fuel - 1, by simp at enough; omega⟩
    rw [seg.1, walk, ih seg.2 (by simpa using enough)]

/-- Over finitely many nodes that many steps walk down every chain that ends. -/
theorem Seg.walk_card [Fintype α] (seg : Seg next start nodes none) :
    walk next (Fintype.card α) start = nodes :=
  seg.walk_eq seg.nodup.length_le_card

/-- From every node the chain ends. -/
def Grounded (next : α → Option α) : Prop := ∀ node, ∃ nodes, Seg next (some node) nodes none

/-- Pointing a node at a chain that avoids it makes no cycle. -/
theorem Grounded.update [DecidableEq α] {v : Option α} (grounded : Grounded next)
    (tail : Seg next v more none) (apart : node ∉ more) :
    Grounded (Function.update next node v) := by
  intro start
  obtain ⟨nodes, seg⟩ := grounded start
  by_cases member : node ∈ nodes
  · obtain ⟨before, after, rfl, left, right⟩ := seg.split member
    have fresh : node ∉ before := by
      have := seg.nodup
      simp [List.nodup_append] at this
      exact fun inside => (this.2.2 node inside).1 rfl
    exact ⟨before ++ node :: more, seg_append.mpr ⟨_, left.update fresh, rfl, by
      rw [Function.update_self]; exact tail.update apart⟩⟩
  · exact ⟨nodes, seg.update member⟩

/-- Pointing the last node of a chain back at a node that leads to it makes a cycle:
the chain no longer ends. -/
theorem no_end_of_loop [DecidableEq α] {before loop rest : List α} {last item : α}
    (chain : Seg next start (before ++ [last]) none)
    (back : Seg next (some item) (loop ++ last :: rest) none) :
    ¬ ∃ nodes, Seg (Function.update next last (some item)) start nodes none := by
  rintro ⟨nodes, ends⟩
  have freshBefore : last ∉ before := by
    have := chain.nodup
    simp [List.nodup_append] at this
    exact fun inside => this.2 last inside rfl
  have freshLoop : last ∉ loop := by
    have := back.nodup
    simp [List.nodup_append] at this
    exact fun inside => (this.2.2 last inside).1 rfl
  have forward := (seg_snoc.mp chain).1.update (v := some item) freshBefore
  obtain ⟨_, around, rfl, _⟩ := seg_append.mp back
  obtain ⟨_, rfl, ends'⟩ := (seg_snoc.mpr ⟨forward, Function.update_self ..⟩ :
    Seg (Function.update next last (some item)) start (before ++ [last]) (some item)).extend ends
  obtain ⟨again, rfl, ends''⟩ := (around.update (v := some item) freshLoop).extend ends'
  cases again with
  | nil => cases ends''
  | cons node again =>
    obtain rfl := Option.some.inj ends''.1
    have := ends.nodup
    simp [List.nodup_append] at this

end MPStuBS.Chain
