import MPStuBS.BBuffer
import MPStuBS.Run

/-! One producer and one consumer at a bounded buffer, interleaved at every single access
of `in`, `out` and `data`. -/
namespace MPStuBS.BBuffer

variable {T : Type} {cap : Nat}

/-- Where the producer is in `produce(val)`: what it has read, and its next access. -/
inductive ProducerPc (T : Type) (cap : Nat) where
  | idle
  | readOut (val : T) (nextin : Fin cap)
  | readIn (val : T) (nextin : Fin cap)
  | write (val : T) (nextin index : Fin cap)
  | publish (val : T) (nextin : Fin cap)

/-- Where the consumer is in `consume`. The operands of `in != out` are read in either order;
`pending` is the number of values that were pending when `in` was read. -/
inductive ConsumerPc (T : Type) (cap : Nat) where
  | idle
  | gotIn (input : Fin cap) (pending : Nat)
  | gotOut (out : Fin cap)
  | readOut
  | read (index : Fin cap)
  | readOutAgain (val : T)
  | release (val : T) (nextout : Fin cap)

/-- The buffer and both parties; the values for which `produce` returns true and those that `consume`
delivers, in order; and for each call that returns false how many values were pending when `produce` read
`out` or `consume` read `in`. -/
structure Shared (T : Type) (cap : Nat) where
  buffer : BBuffer T cap
  producer : ProducerPc T cap
  consumer : ConsumerPc T cap
  produced : List T
  consumed : List T
  refused : List Nat
  missed : List Nat

/-- A call of `produce` or `consume` is begun with its first access, or the party does its next access. -/
inductive Access (T : Type) where
  | produce (val : T)
  | producer
  | consumeIn
  | consumeOut
  | consumer

namespace Shared

def start (supported : 1 < cap) (data : Fin cap → T) : Shared T cap :=
  ⟨.new supported data, .idle, .idle, [], [], [], []⟩

def pending (s : Shared T cap) : Nat := s.produced.length - s.consumed.length

def stepProducer (s : Shared T cap) : Option (Shared T cap) :=
  match s.producer with
  | .idle => none
  | .readOut val nextin =>
    if nextin ≠ s.buffer.out then some { s with producer := .readIn val nextin }
    else some { s with producer := .idle, refused := s.refused ++ [s.pending] }
  | .readIn val nextin => some { s with producer := .write val nextin s.buffer.input }
  | .write val nextin index => some { s with
      producer := .publish val nextin
      buffer := { s.buffer with data := Function.update s.buffer.data index val } }
  | .publish val nextin => some { s with
      producer := .idle
      buffer := { s.buffer with input := nextin }
      produced := s.produced ++ [val] }

/-- What the test `in != out` leads to. -/
def test (s : Shared T cap) (input out : Fin cap) (pending : Nat) : Shared T cap :=
  if input ≠ out then { s with consumer := .readOut }
  else { s with consumer := .idle, missed := s.missed ++ [pending] }

def stepConsumer (s : Shared T cap) : Option (Shared T cap) :=
  match s.consumer with
  | .idle => none
  | .gotIn input pending => some (s.test input s.buffer.out pending)
  | .gotOut out => some (s.test s.buffer.input out s.pending)
  | .readOut => some { s with consumer := .read s.buffer.out }
  | .read index => some { s with consumer := .readOutAgain (s.buffer.data index) }
  | .readOutAgain val => some { s with consumer := .release val (next s.buffer.out) }
  | .release val nextout => some { s with
      consumer := .idle
      buffer := { s.buffer with out := nextout }
      consumed := s.consumed ++ [val] }

def step (s : Shared T cap) : Access T → Option (Shared T cap)
  | .produce val =>
    match s.producer with
    | .idle => some { s with producer := .readOut val (next s.buffer.input) }
    | _ => none
  | .producer => s.stepProducer
  | .consumeIn =>
    match s.consumer with
    | .idle => some { s with consumer := .gotIn s.buffer.input s.pending }
    | _ => none
  | .consumeOut =>
    match s.consumer with
    | .idle => some { s with consumer := .gotOut s.buffer.out }
    | _ => none
  | .consumer => s.stepConsumer

end Shared

section Assertions

variable (b : BBuffer T cap)

/-- What the producer relies on at its position. -/
def Producing : ProducerPc T cap → Prop
  | .idle => True
  | .readOut _ nextin => nextin = next b.input
  | .readIn _ nextin => nextin = next b.input ∧ b.length + 1 < cap
  | .write _ nextin index => nextin = next b.input ∧ b.length + 1 < cap ∧ index = b.input
  | .publish val nextin => nextin = next b.input ∧ b.length + 1 < cap ∧ b.data b.input = val

/-- What the consumer relies on at its position. -/
def Consuming : ConsumerPc T cap → Prop
  | .idle => True
  | .gotIn input pending => (input = b.out → pending = 0) ∧ (input ≠ b.out → 0 < b.length)
  | .gotOut out => out = b.out
  | .readOut => 0 < b.length
  | .read index => 0 < b.length ∧ index = b.out
  | .readOutAgain val => 0 < b.length ∧ b.data b.out = val
  | .release val nextout => 0 < b.length ∧ b.data b.out = val ∧ nextout = next b.out

variable {b : BBuffer T cap}

/-- The consumer does not notice a write to the slot behind the newest value. -/
theorem Consuming.write {pc : ConsumerPc T cap} (consuming : Consuming b pc) (val : T) :
    Consuming (b.store val) pc := by
  have apart : 0 < b.length → (b.store val).data b.out = b.data b.out := by
    intro taken
    have first : b.slot 0 = b.out := by
      rw [Fin.ext_iff, slot_val b (by omega)]
      simp
    exact Function.update_of_ne (first ▸ b.slot_ne taken) val b.data
  cases pc with
  | idle => trivial
  | gotIn input pending => exact consuming
  | gotOut out => exact consuming
  | readOut => exact consuming
  | read index => exact consuming
  | readOutAgain val' => exact ⟨consuming.1, (apart consuming.1).trans consuming.2⟩
  | release val' nextout => exact ⟨consuming.1, (apart consuming.1).trans consuming.2.1, consuming.2.2⟩

/-- Nor does a new value disturb it. -/
theorem Consuming.publish {pc : ConsumerPc T cap} (consuming : Consuming b pc) (room : b.length + 1 < cap) :
    Consuming b.publish pc := by
  have more : 0 < b.publish.length := by
    rw [length_publish b room]
    exact Nat.succ_pos _
  cases pc with
  | idle => trivial
  | gotIn input pending => exact ⟨consuming.1, fun _ => more⟩
  | gotOut out => exact consuming
  | readOut => exact more
  | read index => exact ⟨more, consuming.2⟩
  | readOutAgain val => exact ⟨more, consuming.2⟩
  | release val nextout => exact ⟨more, consuming.2⟩

/-- The producer does not mind that a slot becomes free. -/
theorem Producing.release {pc : ProducerPc T cap} (producing : Producing b pc) (taken : 0 < b.length) :
    Producing b.release pc := by
  have fewer : b.length + 1 < cap → b.release.length + 1 < cap := by
    have less := length_release b taken
    omega
  cases pc with
  | idle => trivial
  | readOut val nextin => exact producing
  | readIn val nextin => exact ⟨producing.1, fewer producing.2⟩
  | write val nextin index => exact ⟨producing.1, fewer producing.2.1, producing.2.2⟩
  | publish val nextin => exact ⟨producing.1, fewer producing.2.1, producing.2.2⟩

end Assertions

namespace Shared

structure Inv (s : Shared T cap) : Prop where
  producing : Producing s.buffer s.producer
  consuming : Consuming s.buffer s.consumer
  sequence : s.produced = s.consumed ++ s.buffer.contents
  refused : ∀ n ∈ s.refused, n = cap - 1
  missed : ∀ n ∈ s.missed, n = 0

variable {s s' : Shared T cap}

theorem start_inv (supported : 1 < cap) (data : Fin cap → T) : (start supported data).Inv where
  producing := trivial
  consuming := trivial
  sequence := (contents_new supported data).symm
  refused n member := by cases member
  missed n member := by cases member

theorem Inv.pending (inv : s.Inv) : s.pending = s.buffer.length := by
  unfold Shared.pending
  rw [inv.sequence, List.length_append, length_contents, Nat.add_sub_cancel_left]

theorem Inv.stepProducer (inv : s.Inv) (stepped : s.stepProducer = some s') : s'.Inv := by
  have pending := inv.pending
  obtain ⟨producing, consuming, sequence, refused, missed⟩ := inv
  cases position : s.producer with
  | idle => simp [Shared.stepProducer, position] at stepped
  | readOut val nextin =>
    rw [position] at producing
    obtain rfl : nextin = next s.buffer.input := producing
    simp only [Shared.stepProducer, position] at stepped
    split at stepped
    · rename_i space
      cases stepped
      have bound := s.buffer.length_lt
      have room := mt s.buffer.full_iff.mpr space
      refine ⟨⟨rfl, ?_⟩, consuming, sequence, refused, missed⟩
      dsimp only
      omega
    · rename_i full
      cases stepped
      refine ⟨trivial, consuming, sequence, ?_, missed⟩
      intro n member
      obtain before | now := List.mem_append.mp member
      · exact refused n before
      · rw [List.mem_singleton.mp now, pending]
        have filled := s.buffer.full_iff.mp (not_not.mp full)
        exact Nat.eq_sub_of_add_eq filled
  | readIn val nextin =>
    simp only [Shared.stepProducer, position, Option.some.injEq] at stepped
    rw [position] at producing
    exact stepped ▸ ⟨⟨producing.1, producing.2, rfl⟩, consuming, sequence, refused, missed⟩
  | write val nextin index =>
    simp only [Shared.stepProducer, position, Option.some.injEq] at stepped
    rw [position] at producing
    obtain ⟨follows, room, rfl⟩ := producing
    subst stepped
    refine ⟨⟨follows, room, Function.update_self ..⟩, consuming.write val, ?_, refused, missed⟩
    exact sequence.trans (congrArg (s.consumed ++ ·) (contents_store s.buffer val).symm)
  | publish val nextin =>
    simp only [Shared.stepProducer, position, Option.some.injEq] at stepped
    rw [position] at producing
    obtain ⟨rfl, room, rfl⟩ := producing
    subst stepped
    refine ⟨trivial, consuming.publish room, ?_, refused, missed⟩
    have grown := contents_publish room
    rw [sequence, List.append_assoc, ← grown]
    rfl

theorem Inv.test (inv : s.Inv) {input out : Fin cap} {pending : Nat} (empty : input = out → pending = 0)
    (taken : input ≠ out → 0 < s.buffer.length) : (s.test input out pending).Inv := by
  obtain ⟨producing, consuming, sequence, refused, missed⟩ := inv
  unfold Shared.test
  split
  · rename_i some
    exact ⟨producing, taken some, sequence, refused, missed⟩
  · rename_i none
    refine ⟨producing, trivial, sequence, refused, ?_⟩
    intro n member
    obtain before | now := List.mem_append.mp member
    · exact missed n before
    · exact (List.mem_singleton.mp now).trans (empty (not_not.mp none))

theorem Inv.looked (inv : s.Inv) : (s.buffer.input = s.buffer.out → s.pending = 0) ∧
    (s.buffer.input ≠ s.buffer.out → 0 < s.buffer.length) := by
  rw [inv.pending]
  exact ⟨s.buffer.empty_iff.mp, fun some => Nat.pos_of_ne_zero (mt s.buffer.empty_iff.mpr some)⟩

theorem Inv.stepConsumer (inv : s.Inv) (stepped : s.stepConsumer = some s') : s'.Inv := by
  have ⟨producing, consuming, sequence, refused, missed⟩ := inv
  cases position : s.consumer with
  | idle => simp [Shared.stepConsumer, position] at stepped
  | gotIn input pending =>
    simp only [Shared.stepConsumer, position, Option.some.injEq] at stepped
    rw [position] at consuming
    exact stepped ▸ inv.test consuming.1 consuming.2
  | gotOut out =>
    simp only [Shared.stepConsumer, position, Option.some.injEq] at stepped
    rw [position] at consuming
    obtain rfl : out = s.buffer.out := consuming
    exact stepped ▸ inv.test inv.looked.1 inv.looked.2
  | readOut =>
    simp only [Shared.stepConsumer, position, Option.some.injEq] at stepped
    rw [position] at consuming
    exact stepped ▸ ⟨producing, ⟨consuming, rfl⟩, sequence, refused, missed⟩
  | read index =>
    simp only [Shared.stepConsumer, position, Option.some.injEq] at stepped
    rw [position] at consuming
    obtain ⟨taken, rfl⟩ := consuming
    exact stepped ▸ ⟨producing, ⟨taken, rfl⟩, sequence, refused, missed⟩
  | readOutAgain val =>
    simp only [Shared.stepConsumer, position, Option.some.injEq] at stepped
    rw [position] at consuming
    exact stepped ▸ ⟨producing, ⟨consuming.1, consuming.2, rfl⟩, sequence, refused, missed⟩
  | release val nextout =>
    simp only [Shared.stepConsumer, position, Option.some.injEq] at stepped
    rw [position] at consuming
    obtain ⟨taken, rfl, rfl⟩ := consuming
    subst stepped
    refine ⟨producing.release taken, trivial, ?_, refused, missed⟩
    rw [sequence, contents_release taken, List.append_cons]
    rfl

theorem Inv.step (inv : s.Inv) (a : Access T) (stepped : s.step a = some s') : s'.Inv := by
  cases a with
  | produce val =>
    cases position : s.producer with
    | idle =>
      simp only [Shared.step, position, Option.some.injEq] at stepped
      exact stepped ▸ ⟨rfl, inv.consuming, inv.sequence, inv.refused, inv.missed⟩
    | _ => simp [Shared.step, position] at stepped
  | producer => exact inv.stepProducer stepped
  | consumeIn =>
    cases position : s.consumer with
    | idle =>
      simp only [Shared.step, position, Option.some.injEq] at stepped
      exact stepped ▸ ⟨inv.producing, inv.looked, inv.sequence, inv.refused, inv.missed⟩
    | _ => simp [Shared.step, position] at stepped
  | consumeOut =>
    cases position : s.consumer with
    | idle =>
      simp only [Shared.step, position, Option.some.injEq] at stepped
      exact stepped ▸ ⟨inv.producing, rfl, inv.sequence, inv.refused, inv.missed⟩
    | _ => simp [Shared.step, position] at stepped
  | consumer => exact inv.stepConsumer stepped

/-- The consumer is at no slot that the producer is writing. -/
def Apart (s : Shared T cap) : Prop :=
  ∀ val nextin written index, s.producer = .write val nextin written → s.consumer = .read index → index ≠ written

theorem Inv.apart (inv : s.Inv) : s.Apart := by
  intro val nextin written index writes reads
  have producing := inv.producing
  have consuming := inv.consuming
  rw [writes] at producing
  rw [reads] at consuming
  obtain ⟨-, -, rfl⟩ := producing
  obtain ⟨taken, rfl⟩ := consuming
  exact fun same => absurd (s.buffer.empty_iff.mp same.symm) (Nat.ne_of_gt taken)

/-- In every interleaving of the accesses the consumed values are the first of the produced ones and the
rest is in the buffer, the two parties are never at one slot, `produce` returns false only if all slots but one
were taken when it read `out`, and `consume` only if none was when it read `in`. -/
theorem values_in_order (supported : 1 < cap) (data : Fin cap → T) (accesses : List (Access T)) (s : Shared T cap)
    (run : Run.exec step (start supported data) accesses = some s) :
    s.consumed <+: s.produced ∧ s.produced = s.consumed ++ s.buffer.contents ∧ s.Apart ∧
      (∀ n ∈ s.refused, n = cap - 1) ∧ ∀ n ∈ s.missed, n = 0 := by
  have inv : s.Inv := Run.invariant Inv (fun _ a _ inv stepped => inv.step a stepped) run (start_inv supported data)
  refine ⟨?_, inv.sequence, inv.apart, inv.refused, inv.missed⟩
  rw [inv.sequence]
  exact List.prefix_append _ _

/-- Two values in a buffer of two slots: one call of `consume` reads `in` before the first value is
there, and a call of `produce` reads `out` before it is taken. -/
def twoValues : List (Access Nat) := [.produce 7, .producer, .producer, .consumeIn, .producer, .producer, .consumer,
  .consumeOut, .consumer, .consumer, .consumer, .consumer, .produce 8, .producer, .consumer, .produce 8, .producer,
  .producer, .producer]

theorem twoValues_in_order : ∃ s, Run.exec step (start (by decide : 1 < 2) fun _ => 0) twoValues = some s ∧
    s.consumed = [7] ∧ s.refused = [1] ∧ s.missed = [0] ∧
    (s.consumed <+: s.produced ∧ s.produced = s.consumed ++ s.buffer.contents ∧ s.Apart ∧
      (∀ n ∈ s.refused, n = 2 - 1) ∧ ∀ n ∈ s.missed, n = 0) :=
  ⟨_, rfl, rfl, rfl, rfl, values_in_order (by decide) (fun _ => 0) twoValues _ rfl⟩

end Shared
end MPStuBS.BBuffer
