import MPStuBS.BlockProgram

/-! Rules for what a program on blocks does when it is run, on either kind of device. -/
namespace MPStuBS

namespace Device

variable {ε : Type} {disk : Disk ε} {d d' d'' : Device} {block : Nat}

@[simp] theorem setBlock_contents (b : Block) : (d.setBlock block b).contents = d.contents := rfl

@[simp] theorem setBlock_next (b : Block) : (d.setBlock block b).next = d.next := rfl

@[simp] theorem setBlock_clock (b : Block) : (d.setBlock block b).clock = d.clock := rfl

@[simp] theorem setBlock_self (b : Block) : (d.setBlock block b).blocks block = b := by
  simp [setBlock]

theorem setBlock_of_ne {other : Nat} (b : Block) (apart : other ≠ block) :
    (d.setBlock block b).blocks other = d.blocks other := by
  simp [setBlock, apart]

/-- Nothing on the device has changed, nor a block that was fixed before. -/
structure Extends (d d' : Device) : Prop where
  contents : d'.contents = d.contents
  next : d.next ≤ d'.next
  blocks : ∀ b, b < d.next → d'.blocks b = d.blocks b

theorem Extends.refl (d : Device) : d.Extends d := ⟨rfl, Nat.le_refl _, fun _ _ => rfl⟩

theorem Extends.trans (fst : d.Extends d') (snd : d'.Extends d'') : d.Extends d'' :=
  ⟨snd.contents.trans fst.contents, Nat.le_trans fst.next snd.next, fun b early =>
    (snd.blocks b (Nat.lt_of_lt_of_le early fst.next)).trans (fst.blocks b early)⟩

theorem Extends.load (same : d.Extends d') (early : block < d.next) :
    d'.load disk block = d.load disk block := by
  simp only [Device.load, same.blocks block early, same.contents]

theorem Extends.tick (same : d.Extends d') : d.Extends d'.tick :=
  ⟨same.contents, same.next, same.blocks⟩

theorem extends_hold (d : Device) (number : Nat) : d.Extends (d.hold number).tick :=
  ⟨rfl, Nat.le_succ _, fun _ early => setBlock_of_ne _ (Nat.ne_of_lt early)⟩

theorem load_hold (d : Device) (number : Nat) :
    (d.hold number).tick.load disk d.next = some (d.contents number) := by
  simp [Device.load, Device.hold, Device.tick, setBlock]

@[simp] theorem blocks_hold (d : Device) (number : Nat) :
    (d.hold number).tick.blocks d.next = ⟨number, true, false, d.contents number⟩ :=
  setBlock_self _

/-- Releasing an unchanged block that was fixed later. -/
theorem Extends.unfix (same : d.Extends d') (late : d.next ≤ block)
    (clean : (d'.blocks block).dirty = false) : d.Extends (d'.exec disk block .unfix) := by
  have kept : d'.sync disk block = d' := by simp [Device.sync, clean]
  simp only [exec, kept]
  refine ⟨same.contents, same.next, fun b early => ?_⟩
  rw [setBlock_of_ne _ (by omega)]
  exact same.blocks b early

end Device

namespace Prog

variable {σ ε φ α β : Type} {disk : Disk ε} {allowed : φ → Prop}

/-- Running the program leads to the postcondition, or to one of the faults. -/
def Meets (disk : Disk ε) (allowed : φ → Prop) (p : Prog σ ε φ α) (post : α → World σ → Prop)
    (w : World σ) : Prop :=
  match p.run disk w with
  | .ok (a, after) => post a after
  | .error f => allowed f

/-- The program returns, to the postcondition. -/
abbrev Returns (disk : Disk ε) (p : Prog σ ε φ α) (post : α → World σ → Prop) (w : World σ) : Prop :=
  Meets disk (fun _ => False) p post w

/-- If the program returns, then to the postcondition. -/
abbrev After (disk : Disk ε) (p : Prog σ ε φ α) (post : α → World σ → Prop) (w : World σ) : Prop :=
  Meets disk (fun _ => True) p post w

theorem run_bind (p : Prog σ ε φ α) (f : α → Prog σ ε φ β) (w : World σ) :
    (p.bind f).run disk w = (p.run disk w).bind fun r => (f r.1).run disk r.2 := by
  induction p generalizing w with
  | pure a => rfl
  | fault e => rfl
  | get k ih => exact ih _ w
  | set s k ih => exact ih _
  | fix number k ih =>
    simp only [bind, run]
    split <;> exact ih _ _
  | load block k ih => exact ih _ w
  | command block c k ih => exact ih _

theorem Meets.mono {p : Prog σ ε φ α} {post post' : α → World σ → Prop} {w : World σ}
    (h : Meets disk allowed p post w) (weaker : ∀ a after, post a after → post' a after) :
    Meets disk allowed p post' w := by
  unfold Meets at h ⊢
  split
  · rename_i a after returned
    rw [returned] at h
    exact weaker a after h
  · rename_i f faulted
    rwa [faulted] at h

theorem Meets.and {p : Prog σ ε φ α} {post post' : α → World σ → Prop} {w : World σ}
    (h : Meets disk allowed p post w) (h' : Meets disk allowed p post' w) :
    Meets disk allowed p (fun a after => post a after ∧ post' a after) w := by
  unfold Meets at h h' ⊢
  split
  · rename_i a after returned
    rw [returned] at h h'
    exact ⟨h, h'⟩
  · rename_i f faulted
    rwa [faulted] at h

theorem Meets.and_after {p : Prog σ ε φ α} {post post' : α → World σ → Prop} {w : World σ}
    (h : Meets disk allowed p post w) (h' : After disk p post' w) :
    Meets disk allowed p (fun a after => post a after ∧ post' a after) w := by
  unfold After Meets at *
  split
  · rename_i a after returned
    rw [returned] at h h'
    exact ⟨h, h'⟩
  · rename_i f faulted
    rwa [faulted] at h

theorem Meets.of_run {p : Prog σ ε φ α} {post : α → World σ → Prop} {w after : World σ} {a : α}
    (h : Meets disk allowed p post w) (returned : p.run disk w = .ok (a, after)) : post a after := by
  unfold Meets at h
  rwa [returned] at h

theorem meets_of_run {p : Prog σ ε φ α} {post : α → World σ → Prop} {w after : World σ} {a : α}
    (returned : p.run disk w = .ok (a, after)) : Meets disk allowed p post w ↔ post a after := by
  unfold Meets
  rw [returned]

theorem Returns.run {p : Prog σ ε φ α} {post : α → World σ → Prop} {w : World σ}
    (h : Returns disk p post w) : ∃ a after, p.run disk w = .ok (a, after) ∧ post a after := by
  unfold Returns Meets at h
  split at h
  · rename_i a after returned
    exact ⟨a, after, returned, h⟩
  · exact h.elim

@[simp] theorem meets_pure {a : α} {post : α → World σ → Prop} {w : World σ} :
    Meets disk allowed (Pure.pure a : Prog σ ε φ α) post w ↔ post a w := Iff.rfl

@[simp] theorem meets_bind {p : Prog σ ε φ α} {f : α → Prog σ ε φ β} {post : β → World σ → Prop}
    {w : World σ} :
    Meets disk allowed (p >>= f) post w ↔
      Meets disk allowed p (fun a => Meets disk allowed (f a) post) w := by
  unfold Meets
  rw [show p >>= f = p.bind f from rfl, run_bind]
  cases p.run disk w <;> rfl

end Prog
end MPStuBS
