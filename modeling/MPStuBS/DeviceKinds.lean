import MPStuBS.ProgramLogic

/-! When a program cannot tell a device that hands out copies from one that lends its
memory: the conditions on each call of the device, and the simulation under them. -/
namespace MPStuBS

namespace Device

/-- Every copy of the block in memory is as on the device. -/
def Settled (d : Device) (number : Nat) : Prop :=
  ∀ b, (d.blocks b).present = true → (d.blocks b).number = number →
    (d.blocks b).copy = d.contents number

/-- No other copy of the block is held. -/
def Sole (d : Device) (block : Nat) : Prop :=
  ∀ b, b ≠ block → (d.blocks b).present = true → (d.blocks b).number ≠ (d.blocks block).number

/-- A held block is changed while no other copy is held, and released without a change
that would be lost. -/
def Allows (d : Device) (block : Nat) : Command → Prop
  | .store _ => (d.blocks block).present = true ∧ d.Sole block
  | .markDirty | .clearDirty => True
  | .sync => (d.blocks block).present = true
  | .unfix => (d.blocks block).present = true ∧
      ((d.blocks block).dirty = true ∨ (d.blocks block).copy = d.contents (d.blocks block).number)

/-- The first device hands out copies, the second lends its memory. -/
structure Agree (d d' : Device) : Prop where
  next : d'.next = d.next
  clock : d'.clock = d.clock
  number : ∀ b, (d'.blocks b).number = (d.blocks b).number
  present : ∀ b, (d'.blocks b).present = (d.blocks b).present
  fresh : ∀ b, d.next ≤ b → (d.blocks b).present = false
  held : ∀ b, (d.blocks b).present = true → (d.blocks b).copy = d'.contents (d.blocks b).number
  settled : ∀ n, d.Settled n → d.contents n = d'.contents n

variable {ε : Type} {disk : Disk ε} {d d' : Device} {block : Nat}

theorem agree_new (contents : Nat → Bytes) : Agree (new contents) (new contents) where
  next := rfl
  clock := rfl
  number _ := rfl
  present _ := rfl
  fresh _ _ := rfl
  held b present := by simp [new] at present
  settled _ _ := rfl

theorem Agree.tick (agree : Agree d d') : Agree d.tick d'.tick :=
  { agree with clock := by simp [Device.tick, agree.clock] }

theorem Agree.load (agree : Agree d d') (copies : disk.copies = true) {lends : Disk ε}
    (lent : lends.copies = false) : d'.load lends block = d.load disk block := by
  simp only [Device.load, copies, lent, agree.present, agree.number, if_true, Bool.false_eq_true,
    if_false]
  split
  · rename_i present
    rw [agree.held block present]
  · rfl

theorem Agree.hold (agree : Agree d d') {n : Nat} (settled : d.Settled n) :
    Agree (d.hold n) (d'.hold n) := by
  have same : d.contents n = d'.contents n := agree.settled n settled
  have blocks : ∀ b, b ≠ d.next → (d.hold n).blocks b = d.blocks b := fun b apart =>
    setBlock_of_ne _ apart
  have blocks' : ∀ b, b ≠ d.next → (d'.hold n).blocks b = d'.blocks b := fun b apart =>
    setBlock_of_ne _ (agree.next ▸ apart)
  have fst : (d.hold n).blocks d.next = ⟨n, true, false, d.contents n⟩ := setBlock_self _
  have snd : (d'.hold n).blocks d.next = ⟨n, true, false, d'.contents n⟩ := by
    rw [← agree.next]
    exact setBlock_self _
  refine ⟨?_, agree.clock, ?_, ?_, ?_, ?_, ?_⟩
  · simp [Device.hold, agree.next]
  · intro b
    by_cases new : b = d.next
    · subst new
      rw [fst, snd]
    · rw [blocks b new, blocks' b new, agree.number]
  · intro b
    by_cases new : b = d.next
    · subst new
      rw [fst, snd]
    · rw [blocks b new, blocks' b new, agree.present]
  · intro b late
    have late : d.next + 1 ≤ b := late
    rw [blocks b (by omega)]
    exact agree.fresh b (by omega)
  · intro b present
    by_cases new : b = d.next
    · subst new
      rw [fst]
      exact same
    · rw [blocks b new] at present ⊢
      exact agree.held b present
  · intro m settled
    refine agree.settled m fun b present number => ?_
    have old : b ≠ d.next := by
      rintro rfl
      rw [agree.fresh _ (Nat.le_refl _)] at present
      cases present
    have copy := settled b
    rw [blocks b old] at copy
    exact copy present number

/-- Changing the flag of one block on both devices. -/
theorem Agree.setDirty (agree : Agree d d') (flag : Bool) :
    Agree (d.setBlock block { d.blocks block with dirty := flag })
      (d'.setBlock block { d'.blocks block with dirty := flag }) := by
  have fst : ∀ b, ((d.setBlock block { d.blocks block with dirty := flag }).blocks b).number
      = (d.blocks b).number ∧
      ((d.setBlock block { d.blocks block with dirty := flag }).blocks b).present
      = (d.blocks b).present ∧
      ((d.setBlock block { d.blocks block with dirty := flag }).blocks b).copy
      = (d.blocks b).copy := by
    intro b
    by_cases here : b = block
    · subst here
      simp
    · simp [setBlock_of_ne _ here]
  refine ⟨agree.next, agree.clock, ?_, ?_, ?_, ?_, ?_⟩
  · intro b
    by_cases here : b = block
    · subst here
      simpa using agree.number b
    · simpa [setBlock_of_ne _ here] using agree.number b
  · intro b
    by_cases here : b = block
    · subst here
      simpa using agree.present b
    · simpa [setBlock_of_ne _ here] using agree.present b
  · intro b late
    rw [(fst b).2.1]
    exact agree.fresh b late
  · intro b present
    rw [(fst b).2.1] at present
    rw [(fst b).2.2, (fst b).1]
    exact agree.held b present
  · intro n settled
    refine agree.settled n fun b present number => ?_
    have copy := settled b
    rw [(fst b).2.1, (fst b).2.2, (fst b).1] at copy
    exact copy present number

theorem Agree.store (agree : Agree d d') (copies : disk.copies = true) {lends : Disk ε}
    (lent : lends.copies = false) (bytes : Bytes) (allows : d.Allows block (.store bytes)) :
    Agree (d.exec disk block (.store bytes)) (d'.exec lends block (.store bytes)) := by
  obtain ⟨held, sole⟩ := allows
  simp only [exec, copies, lent, if_true, Bool.false_eq_true, if_false]
  rw [agree.number]
  have fst : ∀ b, ((d.setBlock block { d.blocks block with copy := bytes }).blocks b).number
      = (d.blocks b).number ∧
      ((d.setBlock block { d.blocks block with copy := bytes }).blocks b).present
      = (d.blocks b).present := by
    intro b
    by_cases here : b = block
    · subst here
      simp
    · simp [setBlock_of_ne _ here]
  refine ⟨agree.next, agree.clock, ?_, ?_, ?_, ?_, ?_⟩
  · intro b
    rw [(fst b).1]
    exact agree.number b
  · intro b
    rw [(fst b).2]
    exact agree.present b
  · intro b late
    rw [(fst b).2]
    exact agree.fresh b late
  · intro b present
    rw [(fst b).2] at present
    rw [(fst b).1]
    by_cases here : b = block
    · subst here
      simp [setContents]
    · have other : (d.blocks b).number ≠ (d.blocks block).number := sole b here present
      simp only [setBlock_of_ne _ here, setContents, Function.update_of_ne other]
      exact agree.held b present
  · intro n settled
    have copy : ∀ b, (d.blocks b).present = true → (d.blocks b).number = n →
        ((d.setBlock block { d.blocks block with copy := bytes }).blocks b).copy = d.contents n := by
      intro b present number
      have copy := settled b
      rw [(fst b).2, (fst b).1] at copy
      exact copy present number
    by_cases here : n = (d.blocks block).number
    · subst here
      have stored := copy block held rfl
      simp only [setBlock_self] at stored
      simp [setContents, stored]
    · simp only [setContents, setBlock_contents, Function.update_of_ne here]
      refine agree.settled n fun b present number => ?_
      have apart : b ≠ block := by
        rintro rfl
        exact here number.symm
      have kept := copy b present number
      rwa [setBlock_of_ne _ apart] at kept

theorem Agree.sync (agree : Agree d d') (held : (d.blocks block).present = true) :
    Agree (d.sync disk block) d' := by
  simp only [Device.sync]
  split
  · have written : (d.blocks block).copy = d'.contents (d.blocks block).number :=
      agree.held block held
    have fst : ∀ b, (((d.setContents (d.blocks block).number (d.blocks block).copy).setBlock block
        { d.blocks block with dirty := false }).blocks b).number = (d.blocks b).number ∧
        (((d.setContents (d.blocks block).number (d.blocks block).copy).setBlock block
        { d.blocks block with dirty := false }).blocks b).present = (d.blocks b).present ∧
        (((d.setContents (d.blocks block).number (d.blocks block).copy).setBlock block
        { d.blocks block with dirty := false }).blocks b).copy = (d.blocks b).copy := by
      intro b
      by_cases here : b = block
      · subst here
        simp
      · rw [setBlock_of_ne _ here]
        simp [setContents]
    refine ⟨agree.next, agree.clock, ?_, ?_, ?_, ?_, ?_⟩
    · intro b
      rw [(fst b).1]
      exact agree.number b
    · intro b
      rw [(fst b).2.1]
      exact agree.present b
    · intro b late
      rw [(fst b).2.1]
      exact agree.fresh b late
    · intro b present
      rw [(fst b).2.1] at present
      rw [(fst b).2.2, (fst b).1]
      exact agree.held b present
    · intro n settled
      by_cases here : n = (d.blocks block).number
      · subst here
        simpa [setContents] using written
      · simp only [setBlock_contents, setContents, Function.update_of_ne here]
        refine agree.settled n fun b present number => ?_
        have copy := settled b
        rw [(fst b).2.1, (fst b).1, (fst b).2.2] at copy
        simpa [setContents, Function.update_of_ne here] using copy present number
  · exact agree

theorem sync_present : ((d.sync disk block).blocks block).present = (d.blocks block).present := by
  simp only [Device.sync]
  split <;> simp

/-- After it has been synced a block that loses no change is as on the device. -/
theorem sync_written (copies : disk.copies = true) (kept : (d.blocks block).dirty = true ∨
    (d.blocks block).copy = d.contents (d.blocks block).number) :
    ((d.sync disk block).blocks block).copy
      = (d.sync disk block).contents ((d.sync disk block).blocks block).number := by
  simp only [Device.sync, copies, true_and]
  split
  · simp [setContents]
  · rename_i clean
    rcases kept with dirty | same
    · exact absurd dirty clean
    · exact same

theorem Agree.unfix (agree : Agree d d') (copies : disk.copies = true) {lends : Disk ε}
    (lent : lends.copies = false) (allows : d.Allows block .unfix) :
    Agree (d.exec disk block .unfix) (d'.exec lends block .unfix) := by
  obtain ⟨held, kept⟩ := allows
  have written := sync_written copies kept
  have synced : Agree (d.sync disk block) d' := agree.sync held
  have still : ((d.sync disk block).blocks block).present = true := sync_present.trans held
  simp only [exec, show d'.sync lends block = d' by simp [Device.sync, lent]]
  generalize d.sync disk block = e at *
  have fst : ∀ b, ((e.setBlock block { e.blocks block with present := false }).blocks b).number
      = (e.blocks b).number ∧
      ((e.setBlock block { e.blocks block with present := false }).blocks b).copy
      = (e.blocks b).copy := by
    intro b
    by_cases here : b = block
    · subst here
      simp
    · simp [setBlock_of_ne _ here]
  have gone : ∀ b, ((e.setBlock block { e.blocks block with present := false }).blocks b).present
      = true → (e.blocks b).present = true := by
    intro b present
    by_cases here : b = block
    · subst here
      exact still
    · rwa [setBlock_of_ne _ here] at present
  refine ⟨synced.next, synced.clock, ?_, ?_, ?_, ?_, ?_⟩
  · intro b
    by_cases here : b = block
    · subst here
      simpa using synced.number b
    · simpa [setBlock_of_ne _ here] using synced.number b
  · intro b
    by_cases here : b = block
    · subst here
      simp
    · simpa [setBlock_of_ne _ here] using synced.present b
  · intro b late
    cases present : ((e.setBlock block { e.blocks block with present := false }).blocks b).present with
    | false => rfl
    | true =>
      have absent := synced.fresh b late
      rw [gone b present] at absent
      cases absent
  · intro b present
    rw [(fst b).2, (fst b).1]
    exact synced.held b (gone b present)
  · intro n settled
    refine synced.settled n fun b present number => ?_
    by_cases here : b = block
    · subst here
      rw [← number]
      exact written
    · have copy := settled b
      rw [setBlock_of_ne _ here] at copy
      exact copy present number

theorem Agree.exec (agree : Agree d d') (copies : disk.copies = true) {lends : Disk ε}
    (lent : lends.copies = false) {c : Command} (allows : d.Allows block c) :
    Agree (d.exec disk block c) (d'.exec lends block c) := by
  cases c with
  | store bytes => exact agree.store copies lent bytes allows
  | markDirty => exact agree.setDirty true
  | clearDirty => exact agree.setDirty false
  | sync =>
    have synced : Agree (d.sync disk block) d' := agree.sync allows
    simpa [Device.exec, show d'.sync lends block = d' by simp [Device.sync, lent]] using synced
  | unfix => exact agree.unfix copies lent allows

end Device

namespace Prog

variable {σ ε φ α : Type}

/-- Every call of the device is allowed: a block is fixed only while no copy of it has
been changed. -/
def Careful (disk : Disk ε) : Prog σ ε φ α → World σ → Prop
  | .pure _, _ => True
  | .fault _, _ => True
  | .get k, w => (k w.state).Careful disk w
  | .set s k, w => k.Careful disk { w with state := s }
  | .fix number k, w =>
    match disk.fails w.device.clock number with
    | some e => (k (.error e)).Careful disk { w with device := w.device.tick }
    | none => w.device.Settled number ∧
        (k (.ok w.device.next)).Careful disk { w with device := (w.device.hold number).tick }
  | .load block k, w => (k (w.device.load disk block)).Careful disk w
  | .command block c k, w => w.device.Allows block c ∧
      k.Careful disk { w with device := w.device.exec disk block c }

/-- Two runs that end alike, on devices that agree. -/
inductive Alike : Except φ (α × World σ) → Except φ (α × World σ) → Prop where
  | returned {a : α} {s : σ} {d d' : Device} (agree : Device.Agree d d') :
      Alike (.ok (a, ⟨s, d⟩)) (.ok (a, ⟨s, d'⟩))
  | faulted {f : φ} : Alike (.error f) (.error f)

/-- A careful program runs alike on both kinds of device. -/
theorem run_alike (fails : Nat → Nat → Option ε) (p : Prog σ ε φ α) :
    ∀ {s : σ} {d d' : Device}, Device.Agree d d' → p.Careful ⟨true, fails⟩ ⟨s, d⟩ →
      Alike (p.run ⟨true, fails⟩ ⟨s, d⟩) (p.run ⟨false, fails⟩ ⟨s, d'⟩) := by
  induction p with
  | pure a =>
    intro s d d' agree _
    exact .returned agree
  | fault f =>
    intro s d d' _ _
    exact .faulted
  | get k ih =>
    intro s d d' agree careful
    exact ih s agree careful
  | set s' k ih =>
    intro s d d' agree careful
    exact ih agree careful
  | fix number k ih =>
    intro s d d' agree careful
    simp only [Careful] at careful
    simp only [run, agree.clock, agree.next]
    cases failure : fails d.clock number with
    | some e =>
      simp only [failure] at careful
      exact ih _ agree.tick careful
    | none =>
      simp only [failure] at careful
      exact ih _ (agree.hold careful.1).tick careful.2
  | load block k ih =>
    intro s d d' agree careful
    simp only [run]
    have same : d'.load ⟨false, fails⟩ block = d.load ⟨true, fails⟩ block := agree.load rfl rfl
    rw [same]
    exact ih _ agree careful
  | command block c k ih =>
    intro s d d' agree careful
    exact ih (agree.exec rfl rfl careful.1) careful.2

/-- Every block that the device hands out during the run has the property. -/
def Lends (disk : Disk ε) (property : Nat → Nat → Prop) : Prog σ ε φ α → World σ → Prop
  | .pure _, _ => True
  | .fault _, _ => True
  | .get k, w => (k w.state).Lends disk property w
  | .set s k, w => k.Lends disk property { w with state := s }
  | .fix number k, w =>
    match disk.fails w.device.clock number with
    | some e => (k (.error e)).Lends disk property { w with device := w.device.tick }
    | none => property w.device.clock number ∧
        (k (.ok w.device.next)).Lends disk property { w with device := (w.device.hold number).tick }
  | .load block k, w => (k (w.device.load disk block)).Lends disk property w
  | .command block c k, w => k.Lends disk property { w with device := w.device.exec disk block c }

/-- Only what holds of the blocks that the device grants matters. -/
theorem lends_congr {disk : Disk ε} {property property' : Nat → Nat → Prop}
    (same : ∀ clock number, disk.fails clock number = none → (property clock number ↔ property' clock number))
    (p : Prog σ ε φ α) : ∀ {w : World σ}, p.Lends disk property w ↔ p.Lends disk property' w := by
  induction p with
  | pure a => exact Iff.rfl
  | fault f => exact Iff.rfl
  | get k ih => exact ih _
  | set s k ih => exact ih
  | fix number k ih =>
    intro w
    simp only [Lends]
    cases granted : disk.fails w.device.clock number with
    | some e => exact ih _
    | none => exact and_congr (same _ number granted) (ih _)
  | load block k ih => exact ih _
  | command block c k ih => exact ih

end Prog
end MPStuBS
