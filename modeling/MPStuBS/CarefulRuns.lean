import MPStuBS.DeviceKinds

/-! A check that a run is careful. It follows which held blocks have been changed since
they were last as on the device, and needs no comparison of bytes. -/
namespace MPStuBS

namespace Device

/-- Whether every copy of the block that is held has this property. -/
def allHeld (d : Device) (number : Nat) (property : Nat → Bool) : Bool :=
  (List.range d.next).all fun b =>
    !(d.blocks b).present || (d.blocks b).number != number || property b

/-- The checked form of `Allows`. -/
def allowed (d : Device) (changed : Nat → Bool) (block : Nat) : Command → Bool
  | .store _ => (d.blocks block).present && d.allHeld (d.blocks block).number (· == block)
  | .markDirty | .clearDirty => true
  | .sync => (d.blocks block).present
  | .unfix => (d.blocks block).present && ((d.blocks block).dirty || !changed block)

/-- Which blocks have been changed after the command. -/
def changedBy (d : Device) (changed : Nat → Bool) (block : Nat) : Command → Nat → Bool
  | .store _ => Function.update changed block true
  | .markDirty | .clearDirty => changed
  | .sync | .unfix => Function.update changed block (changed block && !(d.blocks block).dirty)

structure Tracked (d : Device) (changed : Nat → Bool) : Prop where
  fresh : ∀ b, d.next ≤ b → (d.blocks b).present = false
  clean : ∀ b, (d.blocks b).present = true → changed b = false →
    (d.blocks b).copy = d.contents (d.blocks b).number
  sole : ∀ b, (d.blocks b).present = true → changed b = true → d.Sole b

variable {ε : Type} {disk : Disk ε} {d : Device} {changed : Nat → Bool} {block : Nat}

theorem tracked_new (contents : Nat → Bytes) : Tracked (new contents) fun _ => false where
  fresh _ _ := rfl
  clean b present := by simp [new] at present
  sole b present := by simp [new] at present

theorem Tracked.of_allHeld (tracked : Tracked d changed) {n : Nat} {property : Nat → Bool}
    (all : d.allHeld n property = true) {b : Nat} (present : (d.blocks b).present = true)
    (number : (d.blocks b).number = n) : property b = true := by
  have early : b < d.next := by
    by_contra late
    rw [tracked.fresh b (by omega)] at present
    cases present
  have checked := List.all_eq_true.mp all b (List.mem_range.mpr early)
  simpa [present, number] using checked

theorem Tracked.settled (tracked : Tracked d changed) {n : Nat}
    (all : d.allHeld n (fun b => !changed b) = true) : d.Settled n := by
  intro b present number
  have clean := tracked.clean b present (by simpa using tracked.of_allHeld all present number)
  rwa [number] at clean

theorem Tracked.allows (tracked : Tracked d changed) {c : Command}
    (allowed : d.allowed changed block c = true) : d.Allows block c := by
  cases c with
  | store bytes =>
    simp only [Device.allowed, Bool.and_eq_true] at allowed
    refine ⟨allowed.1, fun b other present number => other ?_⟩
    simpa using tracked.of_allHeld allowed.2 present number
  | markDirty => trivial
  | clearDirty => trivial
  | sync => exact allowed
  | unfix =>
    simp only [Device.allowed, Bool.and_eq_true, Bool.or_eq_true, Bool.not_eq_true'] at allowed
    exact ⟨allowed.1, allowed.2.imp_right (tracked.clean block allowed.1)⟩

theorem Tracked.hold (tracked : Tracked d changed) {n : Nat}
    (all : d.allHeld n (fun b => !changed b) = true) :
    Tracked (d.hold n).tick (Function.update changed d.next false) := by
  have old : ∀ b, b ≠ d.next → (d.hold n).blocks b = d.blocks b := fun b apart =>
    setBlock_of_ne _ apart
  have new : (d.hold n).blocks d.next = ⟨n, true, false, d.contents n⟩ := setBlock_self _
  refine ⟨?_, ?_, ?_⟩
  · intro b late
    have late : d.next + 1 ≤ b := late
    exact (congrArg Block.present (old b (by omega))).trans (tracked.fresh b (by omega))
  · intro b present unchanged
    by_cases here : b = d.next
    · subst here
      exact (congrArg Block.copy new).trans (congrArg d.contents (congrArg Block.number new).symm)
    · change ((d.hold n).blocks b).present = true at present
      change ((d.hold n).blocks b).copy = d.contents ((d.hold n).blocks b).number
      rw [old b here] at present ⊢
      exact tracked.clean b present (by simpa [Function.update_of_ne here] using unchanged)
  · intro b present hasChanged
    have here : b ≠ d.next := by
      rintro rfl
      simp at hasChanged
    rw [Function.update_of_ne here] at hasChanged
    change ((d.hold n).blocks b).present = true at present
    rw [old b here] at present
    intro c other held
    change ((d.hold n).blocks c).present = true at held
    change ((d.hold n).blocks c).number ≠ ((d.hold n).blocks b).number
    rw [old b here]
    by_cases fst : c = d.next
    · subst fst
      rw [new]
      intro number
      have unchanged := tracked.of_allHeld all present number.symm
      simp [hasChanged] at unchanged
    · rw [old c fst] at held ⊢
      exact tracked.sole b present hasChanged c other held

/-- The number and presence of every block are kept. -/
def SameBlocks (d d' : Device) : Prop :=
  ∀ b, (d'.blocks b).number = (d.blocks b).number ∧ (d'.blocks b).present = (d.blocks b).present

theorem sameBlocks_setBlock {b : Block} (number : b.number = (d.blocks block).number)
    (present : b.present = (d.blocks block).present) : d.SameBlocks (d.setBlock block b) := by
  intro c
  by_cases here : c = block
  · subst here
    simp [number, present]
  · simp [setBlock_of_ne _ here]

theorem SameBlocks.sole {d' : Device} (same : d.SameBlocks d') {b : Nat} (sole : d.Sole b) :
    d'.Sole b := by
  intro c other present
  rw [(same c).1, (same b).1]
  exact sole c other ((same c).2 ▸ present)

theorem Tracked.store (tracked : Tracked d changed) (copies : disk.copies = true) {bytes : Bytes}
    (allows : d.Allows block (.store bytes)) :
    Tracked (d.exec disk block (.store bytes)) (Function.update changed block true) := by
  simp only [exec, copies, if_true]
  have same : d.SameBlocks (d.setBlock block { d.blocks block with copy := bytes }) :=
    sameBlocks_setBlock rfl rfl
  refine ⟨?_, ?_, ?_⟩
  · intro b late
    exact (same b).2.trans (tracked.fresh b late)
  · intro b present unchanged
    have here : b ≠ block := by
      rintro rfl
      simp at unchanged
    rw [Function.update_of_ne here] at unchanged
    rw [(same b).2] at present
    rw [setBlock_of_ne _ here]
    exact tracked.clean b present unchanged
  · intro b present hasChanged
    rw [(same b).2] at present
    refine same.sole ?_
    by_cases here : b = block
    · subst here
      exact allows.2
    · rw [Function.update_of_ne here] at hasChanged
      exact tracked.sole b present hasChanged

theorem Tracked.setDirty (tracked : Tracked d changed) (flag : Bool) :
    Tracked (d.setBlock block { d.blocks block with dirty := flag }) changed := by
  have same : d.SameBlocks (d.setBlock block { d.blocks block with dirty := flag }) :=
    sameBlocks_setBlock rfl rfl
  refine ⟨?_, ?_, ?_⟩
  · intro b late
    exact (same b).2.trans (tracked.fresh b late)
  · intro b present unchanged
    rw [(same b).2] at present
    by_cases here : b = block
    · subst here
      simpa using tracked.clean b present unchanged
    · rw [setBlock_of_ne _ here]
      exact tracked.clean b present unchanged
  · intro b present hasChanged
    rw [(same b).2] at present
    exact same.sole (tracked.sole b present hasChanged)

theorem Tracked.sync (tracked : Tracked d changed) (copies : disk.copies = true)
    (held : (d.blocks block).present = true) :
    Tracked (d.sync disk block)
      (Function.update changed block (changed block && !(d.blocks block).dirty)) := by
  simp only [Device.sync, copies, true_and]
  split
  · rename_i dirty
    have same : d.SameBlocks ((d.setContents (d.blocks block).number (d.blocks block).copy).setBlock
        block { d.blocks block with dirty := false }) :=
      sameBlocks_setBlock (d := d.setContents _ _) rfl rfl
    refine ⟨?_, ?_, ?_⟩
    · intro b late
      exact (same b).2.trans (tracked.fresh b late)
    · intro b present unchanged
      rw [(same b).2] at present
      by_cases here : b = block
      · subst here
        simp [setContents]
      · rw [Function.update_of_ne here] at unchanged
        rw [setBlock_of_ne _ here]
        have clean := tracked.clean b present unchanged
        by_cases number : (d.blocks b).number = (d.blocks block).number
        · cases before : changed block with
          | true => exact absurd number (tracked.sole block held before b here present)
          | false =>
            have written := tracked.clean block held before
            simp only [setBlock_contents, setContents, number, Function.update_self]
            rw [clean, written, number]
        · simp only [setBlock_contents, setContents, Function.update_of_ne number]
          exact clean
    · intro b present hasChanged
      rw [(same b).2] at present
      by_cases here : b = block
      · subst here
        simp [dirty] at hasChanged
      · rw [Function.update_of_ne here] at hasChanged
        exact same.sole (tracked.sole b present hasChanged)
  · rename_i clean
    have kept : Function.update changed block (changed block && !(d.blocks block).dirty) = changed := by
      simp [Bool.not_eq_true _ ▸ clean]
    rw [kept]
    exact tracked

theorem Tracked.unfix (tracked : Tracked d changed) (copies : disk.copies = true)
    (held : (d.blocks block).present = true) :
    Tracked (d.exec disk block .unfix)
      (Function.update changed block (changed block && !(d.blocks block).dirty)) := by
  have synced := tracked.sync copies held
  simp only [exec]
  generalize d.sync disk block = e at *
  have gone : ∀ b, ((e.setBlock block { e.blocks block with present := false }).blocks b).present
      = true → b ≠ block := by
    rintro b present rfl
    simp at present
  refine ⟨?_, ?_, ?_⟩
  · intro b late
    by_cases here : b = block
    · subst here
      simp
    · rw [setBlock_of_ne _ here]
      exact synced.fresh b late
  · intro b present unchanged
    have here := gone b present
    rw [setBlock_of_ne _ here] at present ⊢
    exact synced.clean b present unchanged
  · intro b present hasChanged c other heldToo
    have here := gone b present
    have there := gone c heldToo
    rw [setBlock_of_ne _ here] at present ⊢
    rw [setBlock_of_ne _ there] at heldToo ⊢
    exact synced.sole b present hasChanged c other heldToo

theorem Tracked.exec (tracked : Tracked d changed) (copies : disk.copies = true) {c : Command}
    (allows : d.Allows block c) :
    Tracked (d.exec disk block c) (d.changedBy changed block c) := by
  cases c with
  | store bytes => exact tracked.store copies allows
  | markDirty => exact tracked.setDirty true
  | clearDirty => exact tracked.setDirty false
  | sync => exact tracked.sync copies allows
  | unfix => exact tracked.unfix copies allows.1

end Device

namespace Prog

variable {σ ε φ α : Type}

def checked (disk : Disk ε) : Prog σ ε φ α → World σ → (Nat → Bool) → Bool
  | .pure _, _, _ => true
  | .fault _, _, _ => true
  | .get k, w, changed => (k w.state).checked disk w changed
  | .set s k, w, changed => k.checked disk { w with state := s } changed
  | .fix number k, w, changed =>
    match disk.fails w.device.clock number with
    | some e => (k (.error e)).checked disk { w with device := w.device.tick } changed
    | none => w.device.allHeld number (fun b => !changed b) &&
        (k (.ok w.device.next)).checked disk { w with device := (w.device.hold number).tick }
          (Function.update changed w.device.next false)
  | .load block k, w, changed => (k (w.device.load disk block)).checked disk w changed
  | .command block c k, w, changed => w.device.allowed changed block c &&
      k.checked disk { w with device := w.device.exec disk block c }
        (w.device.changedBy changed block c)

theorem careful_of_checked {disk : Disk ε} (copies : disk.copies = true) (p : Prog σ ε φ α) :
    ∀ {w : World σ} {changed : Nat → Bool}, w.device.Tracked changed →
      p.checked disk w changed = true → p.Careful disk w := by
  induction p with
  | pure a =>
    intro w changed _ _
    trivial
  | fault f =>
    intro w changed _ _
    trivial
  | get k ih =>
    intro w changed tracked checked
    exact ih w.state tracked checked
  | set s k ih =>
    intro w changed tracked checked
    exact ih (w := { w with state := s }) tracked checked
  | fix number k ih =>
    intro w changed tracked checked
    simp only [Prog.checked] at checked
    simp only [Careful]
    cases failure : disk.fails w.device.clock number with
    | some e =>
      simp only [failure] at checked ⊢
      exact ih _ (w := { w with device := w.device.tick })
        ⟨tracked.fresh, tracked.clean, tracked.sole⟩ checked
    | none =>
      simp only [failure, Bool.and_eq_true] at checked ⊢
      exact ⟨tracked.settled checked.1, ih _ (w := { w with device := (w.device.hold number).tick })
        (tracked.hold checked.1) checked.2⟩
  | load block k ih =>
    intro w changed tracked checked
    exact ih _ tracked checked
  | command block c k ih =>
    intro w changed tracked checked
    simp only [Prog.checked, Bool.and_eq_true] at checked
    have allows := tracked.allows checked.1
    exact ⟨allows, ih (w := { w with device := w.device.exec disk block c })
      (tracked.exec copies allows) checked.2⟩

end Prog
end MPStuBS
