import MPStuBS.BlockViews

/-! The memory of a block that is held while a program changes other blocks. -/
namespace MPStuBS

variable {ε : Type} {disk : Disk ε} {d : Device} {held : Nat}

namespace Device

/-- What the block has in memory, also when it is not held any more. -/
def memory (disk : Disk ε) (d : Device) (b : Nat) : Bytes :=
  if disk.copies then (d.blocks b).copy else d.contents (d.blocks b).number

/-- Two held blocks are the same memory. -/
def shares (disk : Disk ε) (d : Device) (b b' : Nat) : Bool :=
  if disk.copies then b == b' else (d.blocks b).number == (d.blocks b').number

theorem memory_of_load {bytes : Bytes} (loaded : d.load disk held = some bytes) :
    d.memory disk held = bytes := by
  simp only [load] at loaded
  split at loaded
  · exact Option.some.inj loaded
  · cases loaded

theorem memory_congr {d' : Device} (contents : d'.contents = d.contents)
    (block : d'.blocks held = d.blocks held) : d'.memory disk held = d.memory disk held := by
  simp only [memory, contents, block]

theorem memory_setBlock {b : Nat} {blk : Block} (number : blk.number = (d.blocks b).number)
    (copy : blk.copy = (d.blocks b).copy) : (d.setBlock b blk).memory disk held = d.memory disk held := by
  by_cases here : held = b
  · subst here
    simp [memory, number, copy]
  · exact memory_congr rfl (setBlock_of_ne blk here)

theorem memory_sync (b : Nat) : (d.sync disk b).memory disk held = d.memory disk held := by
  simp only [sync]
  split
  · rename_i written
    have copied : (d.setContents (d.blocks b).number (d.blocks b).copy).memory disk held =
        d.memory disk held := by
      simp [memory, written.1, setContents]
    refine Eq.trans (memory_setBlock ?_ ?_) copied
    · rfl
    · rfl
  · rfl

theorem memory_store {b : Nat} (bytes : Bytes) (apart : d.shares disk b held = false) :
    (d.exec disk b (.store bytes)).memory disk held = d.memory disk held := by
  unfold shares at apart
  simp only [exec]
  split
  · rename_i copies
    have other : held ≠ b := by
      rintro rfl
      simp [copies] at apart
    exact memory_congr rfl (setBlock_of_ne _ other)
  · rename_i lends
    have other : (d.blocks held).number ≠ (d.blocks b).number := by
      intro same
      simp [lends, same] at apart
    simp only [memory, lends, Bool.false_eq_true, if_false, setContents, Function.update_of_ne other]

/-- A store to memory that the block shares is what it shows. -/
theorem memory_store_shared {b : Nat} (bytes : Bytes) (shared : d.shares disk b held = true) :
    (d.exec disk b (.store bytes)).memory disk held = bytes := by
  unfold shares at shared
  simp only [exec]
  split
  · rename_i copies
    have same : b = held := by simpa [copies] using shared
    subst same
    simp [memory, copies]
  · rename_i lends
    have same : (d.blocks b).number = (d.blocks held).number := by simpa [lends] using shared
    simp [memory, lends, setContents, same]

theorem memory_eq_of_shares {b : Nat} (shared : d.shares disk b held = true) :
    d.memory disk b = d.memory disk held := by
  unfold shares at shared
  cases copies : disk.copies with
  | true =>
    have same : b = held := by simpa [copies] using shared
    rw [same]
  | false =>
    have same : (d.blocks b).number = (d.blocks held).number := by simpa [copies] using shared
    simp [memory, copies, same]

/-- Only a store changes memory. -/
theorem memory_exec {b : Nat} {c : Command} (stores : ∀ bytes, c = .store bytes → d.shares disk b held = false) :
    (d.exec disk b c).memory disk held = d.memory disk held := by
  cases c with
  | store bytes => exact memory_store bytes (stores bytes rfl)
  | markDirty => exact memory_setBlock rfl rfl
  | clearDirty => exact memory_setBlock rfl rfl
  | sync => exact memory_sync b
  | unfix =>
    have gone : ((d.sync disk b).setBlock b { (d.sync disk b).blocks b with present := false }).memory
        disk held = (d.sync disk b).memory disk held := memory_setBlock rfl rfl
    exact gone.trans (memory_sync b)

theorem memory_hold (early : held < d.next) (number : Nat) :
    (d.hold number).tick.memory disk held = d.memory disk held :=
  memory_congr (extends_hold d number).contents ((extends_hold d number).blocks held early)

/-- Time has passed, and the memory of the block is as it was. -/
def Retains (disk : Disk ε) (held : Nat) (d d' : Device) : Prop :=
  d.next ≤ d'.next ∧ d'.memory disk held = d.memory disk held

theorem Retains.refl (disk : Disk ε) (held : Nat) (d : Device) : Retains disk held d d := ⟨Nat.le_refl _, rfl⟩

theorem Retains.trans {d' d'' : Device} (fst : Retains disk held d d') (snd : Retains disk held d' d'') :
    Retains disk held d d'' :=
  ⟨Nat.le_trans fst.1 snd.1, snd.2.trans fst.2⟩

theorem retains_exec {b : Nat} {c : Command} (stores : ∀ bytes, c = .store bytes → d.shares disk b held = false) :
    Retains disk held d (d.exec disk b c) :=
  ⟨Nat.le_of_eq (next_exec c).symm, memory_exec stores⟩

theorem retains_hold (early : held < d.next) (number : Nat) : Retains disk held d (d.hold number).tick :=
  ⟨Nat.le_succ _, memory_hold early number⟩

end Device

namespace Prog

variable {σ φ α β : Type}

/-- During the run no store goes to the memory of the block. -/
def avoids (disk : Disk ε) (held : Nat) : Prog σ ε φ α → World σ → Bool
  | .pure _, _ => true
  | .fault _, _ => true
  | .get k, w => (k w.state).avoids disk held w
  | .set s k, w => k.avoids disk held { w with state := s }
  | .fix number k, w =>
    match disk.fails w.device.clock number with
    | some e => (k (.error e)).avoids disk held { w with device := w.device.tick }
    | none => (k (.ok w.device.next)).avoids disk held { w with device := (w.device.hold number).tick }
  | .load block k, w => (k (w.device.load disk block)).avoids disk held w
  | .command block (.store bytes) k, w => !w.device.shares disk block held &&
      k.avoids disk held { w with device := w.device.exec disk block (.store bytes) }
  | .command block c k, w => k.avoids disk held { w with device := w.device.exec disk block c }

/-- A run that avoids the block keeps its memory. -/
theorem after_avoids (p : Prog σ ε φ α) : ∀ {w : World σ}, held < w.device.next →
    p.avoids disk held w = true → After disk p (fun _ w' => Device.Retains disk held w.device w'.device) w := by
  induction p with
  | pure a => exact fun _ _ => .refl _ _ _
  | fault f => exact fun _ _ => trivial
  | get k ih => exact fun early avoids => ih _ early avoids
  | set s k ih => exact fun early avoids => ih (w := ⟨s, _⟩) early avoids
  | fix number k ih =>
    intro w early avoids
    unfold After Meets
    simp only [Prog.avoids, run] at avoids ⊢
    cases failure : disk.fails w.device.clock number with
    | some e =>
      simp only [failure] at avoids ⊢
      exact ih _ (w := ⟨w.state, w.device.tick⟩) early avoids
    | none =>
      simp only [failure] at avoids ⊢
      refine Meets.mono (ih _ (w := ⟨w.state, (w.device.hold number).tick⟩) (Nat.lt_succ_of_lt early) avoids) ?_
      rintro _ w' kept
      exact (Device.retains_hold early number).trans kept
  | load block k ih => exact fun early avoids => ih _ early avoids
  | command block c k ih =>
    intro w early avoids
    have both : (∀ bytes, c = .store bytes → w.device.shares disk block held = false) ∧
        k.avoids disk held { w with device := w.device.exec disk block c } = true := by
      cases c with
      | store bytes => simpa [Prog.avoids] using avoids
      | _ => exact ⟨by simp, avoids⟩
    refine Meets.mono (ih (w := ⟨w.state, w.device.exec disk block c⟩) ?_ both.2) ?_
    · rwa [Device.next_exec]
    · rintro _ w' kept
      exact (Device.retains_exec both.1).trans kept

/-- The program stores nothing, whatever it is answered. -/
def Storeless : Prog σ ε φ α → Prop
  | .pure _ => True
  | .fault _ => True
  | .get k => ∀ s, (k s).Storeless
  | .set _ k => k.Storeless
  | .fix _ k => ∀ r, (k r).Storeless
  | .load _ k => ∀ r, (k r).Storeless
  | .command _ c k => (∀ bytes, c ≠ .store bytes) ∧ k.Storeless

theorem Storeless.bind {p : Prog σ ε φ α} {f : α → Prog σ ε φ β} (h : p.Storeless)
    (next : ∀ a, (f a).Storeless) : (p >>= f).Storeless := by
  change (p.bind f).Storeless
  induction p with
  | pure a => exact next a
  | fault f => trivial
  | get k ih => exact fun s => ih s (h s)
  | set s k ih => exact ih h
  | fix m k ih => exact fun r => ih r (h r)
  | load b k ih => exact fun r => ih r (h r)
  | command b c k ih => exact ⟨h.1, ih h.2⟩

theorem Storeless.avoids {p : Prog σ ε φ α} (h : p.Storeless) : ∀ w : World σ, p.avoids disk held w = true := by
  induction p with
  | pure a => exact fun _ => rfl
  | fault f => exact fun _ => rfl
  | get k ih => exact fun w => ih _ (h _) w
  | set s k ih => exact fun w => ih h _
  | fix m k ih =>
    intro w
    simp only [Prog.avoids]
    split
    · exact ih _ (h _) _
    · exact ih _ (h _) _
  | load b k ih => exact fun w => ih _ (h _) w
  | command b c k ih =>
    intro w
    cases c with
    | store bytes => exact absurd rfl (h.1 bytes)
    | _ => exact ih h.2 _

/-- The rest of a program after a part that stores nothing. -/
theorem Storeless.andThen {p : Prog σ ε φ α} {f : α → Prog σ ε φ β} {post : β → World σ → Prop} {w : World σ}
    (h : p.Storeless) (early : held < w.device.next)
    (rest : ∀ a w', Device.Retains disk held w.device w'.device → After disk (f a) post w') :
    After disk (p >>= f) post w :=
  meets_bind.mpr ((after_avoids p early (h.avoids w)).mono rest)

end Prog
end MPStuBS
