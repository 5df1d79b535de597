import MPStuBS.BlockViews

/-! Programs that release only blocks which they have fixed themselves, and change no others
but some that are known. -/
namespace MPStuBS

/-- What is left of the blocks that were fixed before the `n`-th, of which some may change. -/
structure Device.Spared (mine : Nat → Prop) (n : Nat) (d d' : Device) : Prop where
  next : d.next ≤ d'.next
  present : ∀ b < n, (d'.blocks b).present = (d.blocks b).present
  others : ∀ b < n, ¬ mine b → d'.blocks b = d.blocks b

theorem Device.Spared.refl (mine : Nat → Prop) (n : Nat) (d : Device) : d.Spared mine n d :=
  ⟨Nat.le_refl _, fun _ _ => rfl, fun _ _ _ => rfl⟩

theorem Device.Spared.trans {mine : Nat → Prop} {n : Nat} {d d' d'' : Device} (fst : d.Spared mine n d')
    (snd : d'.Spared mine n d'') : d.Spared mine n d'' :=
  ⟨Nat.le_trans fst.next snd.next, fun b before => (snd.present b before).trans (fst.present b before),
    fun b before other => (snd.others b before other).trans (fst.others b before other)⟩

theorem Device.spared_exec {ε : Type} {mine : Nat → Prop} {n : Nat} {disk : Disk ε} {d : Device} {b : Nat} {c : Command}
    (may : n ≤ b ∨ mine b ∧ c ≠ .unfix) : d.Spared mine n (d.exec disk b c) := by
  refine ⟨Nat.le_of_eq (Device.next_exec c).symm, fun b' before => ?_, fun b' before other => ?_⟩
  · by_cases here : b' = b
    · subst here
      have kept := (may.resolve_left (Nat.not_le.mpr before)).2
      cases c with
      | unfix => exact absurd rfl kept
      | store bytes =>
        simp only [Device.exec]
        split
        · simp
        · rfl
      | markDirty => simp [Device.exec]
      | clearDirty => simp [Device.exec]
      | sync =>
        simp only [Device.exec, Device.sync]
        split
        · simp
        · rfl
    · rw [Device.blocks_exec_of_ne c here]
  · refine Device.blocks_exec_of_ne c ?_
    rintro rfl
    exact other (may.resolve_left (Nat.not_le.mpr before)).1

namespace Prog

variable {σ ε φ α β : Type} {n : Nat} {mine : Nat → Prop} {keeps : σ → Prop}

/-- Of the blocks that were fixed before the `n`-th the program releases none and changes only
those that are `mine`, whatever it is answered in states that it `keeps`. Its result has the
property. -/
def Spares (mine : Nat → Prop) (keeps : σ → Prop) (n : Nat) : Prog σ ε φ α → (α → Prop) → Prop
  | .pure a, post => post a
  | .fault _, _ => True
  | .get k, post => ∀ s, keeps s → (k s).Spares mine keeps n post
  | .set s k, post => keeps s ∧ k.Spares mine keeps n post
  | .fix _ k, post => ∀ r, (∀ b, r = .ok b → n ≤ b) → (k r).Spares mine keeps n post
  | .load _ k, post => ∀ r, (k r).Spares mine keeps n post
  | .command b c k, post => (n ≤ b ∨ mine b ∧ c ≠ .unfix) ∧ k.Spares mine keeps n post

theorem Spares.bind {p : Prog σ ε φ α} {f : α → Prog σ ε φ β} {post : α → Prop} {post' : β → Prop}
    (h : p.Spares mine keeps n post) (next : ∀ a, post a → (f a).Spares mine keeps n post') :
    (p >>= f).Spares mine keeps n post' := by
  change (p.bind f).Spares mine keeps n post'
  induction p with
  | pure a => exact next a h
  | fault f => trivial
  | get k ih => exact fun s kept => ih s (h s kept)
  | set s k ih => exact ⟨h.1, ih h.2⟩
  | fix m k ih => exact fun r late => ih r (h r late)
  | load b k ih => exact fun r => ih r (h r)
  | command b c k ih => exact ⟨h.1, ih h.2⟩

/-- All blocks that were fixed before are still fixed, and most of them are as they were. -/
theorem Spares.after {disk : Disk ε} {p : Prog σ ε φ α} {post : α → Prop} (h : p.Spares mine keeps n post) :
    ∀ {w : World σ}, keeps w.state → n ≤ w.device.next → After disk p (fun a w' => post a ∧ keeps w'.state ∧
      w.device.Spared mine n w'.device) w := by
  induction p with
  | pure a => exact fun kept _ => ⟨h, kept, .refl _ _ _⟩
  | fault f => exact fun _ _ => trivial
  | get k ih => exact fun kept early => ih _ (h _ kept) kept early
  | set s k ih => exact fun _ early => ih h.2 (w := ⟨s, _⟩) h.1 early
  | fix m k ih =>
    intro w kept early
    unfold After Meets
    simp only [run]
    split <;> rename_i ran <;> split at ran
    · have ticked : w.device.Spared mine n w.device.tick := ⟨Nat.le_refl _, fun _ _ => rfl, fun _ _ _ => rfl⟩
      obtain ⟨result, state, spared⟩ := (ih _ (h _ (by simp)) (w := ⟨w.state, w.device.tick⟩) kept early).of_run ran
      exact ⟨result, state, ticked.trans spared⟩
    · have late : ∀ b, (Except.ok w.device.next : Except ε Nat) = .ok b → n ≤ b := by
        rintro b ⟨⟩
        exact early
      obtain ⟨result, state, spared⟩ := (ih _ (h _ late)
        (w := ⟨w.state, (w.device.hold m).tick⟩) kept (Nat.le_succ_of_le early)).of_run ran
      have grown := Device.extends_hold w.device m
      have held : w.device.Spared mine n (w.device.hold m).tick :=
        ⟨grown.next, fun b before => congrArg Block.present (grown.blocks b (Nat.lt_of_lt_of_le before early)),
          fun b before _ => grown.blocks b (Nat.lt_of_lt_of_le before early)⟩
      exact ⟨result, state, held.trans spared⟩
    · trivial
    · trivial
  | load b k ih => exact fun kept early => ih _ (h _) kept early
  | command b c k ih =>
    intro w kept early
    refine Meets.mono (ih h.2 (w := ⟨w.state, w.device.exec disk b c⟩) kept ?_) ?_
    · rwa [Device.next_exec]
    · rintro a w' ⟨result, state, spared⟩
      exact ⟨result, state, (Device.spared_exec h.1).trans spared⟩

end Prog
end MPStuBS
