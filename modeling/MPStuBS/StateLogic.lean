import MPStuBS.ProgramLogic
import Mathlib.Order.Defs.Unbundled

/-! What a program does to its own state, whatever the device answers. -/
namespace MPStuBS.Prog

variable {σ ε φ α β : Type} {R : σ → σ → Prop}

/-- The postcondition holds of the result and the state whenever the program returns. -/
def Always : Prog σ ε φ α → (α → σ → Prop) → σ → Prop
  | .pure a, post, s => post a s
  | .fault _, _, _ => True
  | .get k, post, s => (k s).Always post s
  | .set s k, post, _ => k.Always post s
  | .fix _ k, post, s => ∀ r, (k r).Always post s
  | .load _ k, post, s => ∀ r, (k r).Always post s
  | .command _ _ k, post, s => k.Always post s

theorem Always.mono {p : Prog σ ε φ α} {post post' : α → σ → Prop} :
    ∀ {s : σ}, p.Always post s → (∀ a s', post a s' → post' a s') → p.Always post' s := by
  induction p with
  | pure a =>
    intro s h weaker
    exact weaker a s h
  | fault f =>
    intro s _ _
    trivial
  | get k ih =>
    intro s h weaker
    exact ih s h weaker
  | set s' k ih =>
    intro s h weaker
    exact ih h weaker
  | fix n k ih =>
    intro s h weaker r
    exact ih r (h r) weaker
  | load b k ih =>
    intro s h weaker r
    exact ih r (h r) weaker
  | command b c k ih =>
    intro s h weaker
    exact ih h weaker

theorem always_true (p : Prog σ ε φ α) : ∀ s, p.Always (fun _ _ => True) s := by
  induction p with
  | pure a => exact fun _ => trivial
  | fault f => exact fun _ => trivial
  | get k ih => exact fun s => ih s s
  | set s' k ih => exact fun _ => ih s'
  | fix n k ih => exact fun s r => ih r s
  | load b k ih => exact fun s r => ih r s
  | command b c k ih => exact fun s => ih s

theorem Always.and {p : Prog σ ε φ α} {post post' : α → σ → Prop} :
    ∀ {s : σ}, p.Always post s → p.Always post' s → p.Always (fun a s' => post a s' ∧ post' a s') s := by
  induction p with
  | pure a => exact fun h h' => ⟨h, h'⟩
  | fault f => exact fun _ _ => trivial
  | get k ih => exact fun h h' => ih _ h h'
  | set s' k ih => exact fun h h' => ih h h'
  | fix n k ih => exact fun h h' r => ih r (h r) (h' r)
  | load b k ih => exact fun h h' r => ih r (h r) (h' r)
  | command b c k ih => exact fun h h' => ih h h'

@[simp] theorem always_pure {a : α} {post : α → σ → Prop} {s : σ} :
    (Pure.pure a : Prog σ ε φ α).Always post s ↔ post a s := Iff.rfl

theorem always_bind' {p : Prog σ ε φ α} {f : α → Prog σ ε φ β} {post : β → σ → Prop} :
    ∀ {s : σ}, (p.bind f).Always post s ↔ p.Always (fun a s' => (f a).Always post s') s := by
  induction p with
  | pure a => exact Iff.rfl
  | fault f => exact Iff.rfl
  | get k ih => exact ih _
  | set s' k ih => exact ih
  | fix n k ih => exact forall_congr' fun r => ih r
  | load b k ih => exact forall_congr' fun r => ih r
  | command b c k ih => exact ih

@[simp] theorem always_bind {p : Prog σ ε φ α} {f : α → Prog σ ε φ β} {post : β → σ → Prop} {s : σ} :
    (p >>= f).Always post s ↔ p.Always (fun a s' => (f a).Always post s') s :=
  always_bind'

theorem Always.after {disk : Disk ε} {p : Prog σ ε φ α} {post : α → σ → Prop} :
    ∀ {w : World σ}, p.Always post w.state → After disk p (fun a w' => post a w'.state) w := by
  induction p with
  | pure a =>
    intro w h
    exact h
  | fault f =>
    intro w _
    trivial
  | get k ih =>
    intro w h
    exact ih w.state h
  | set s k ih =>
    intro w h
    exact ih (w := { w with state := s }) h
  | fix n k ih =>
    intro w h
    unfold After Meets
    simp only [run]
    split <;> rename_i ran <;> split at ran
    · exact (ih _ (w := { w with device := w.device.tick }) (h _)).of_run ran
    · exact (ih _ (w := { w with device := (w.device.hold n).tick }) (h _)).of_run ran
    · trivial
    · trivial
  | load b k ih =>
    intro w h
    exact ih _ (h _)
  | command b c k ih =>
    intro w h
    exact ih (w := { w with device := w.device.exec disk b c }) h

/-- Programs that go on in the same way after every result the first part can have. -/
theorem run_bind_congr {disk : Disk ε} {p : Prog σ ε φ α} {f g : α → Prog σ ε φ β}
    {post : α → σ → Prop} {w : World σ} (h : p.Always post w.state)
    (same : ∀ a w', post a w'.state → (f a).run disk w' = (g a).run disk w') :
    (p >>= f).run disk w = (p >>= g).run disk w := by
  rw [show p >>= f = p.bind f from rfl, show p >>= g = p.bind g from rfl, run_bind, run_bind]
  cases ran : p.run disk w with
  | error e => rfl
  | ok r => exact same r.1 r.2 (h.after.of_run ran)

/-- The state before and after the program are related, however it returns. -/
def Keeps (R : σ → σ → Prop) (p : Prog σ ε φ α) : Prop := ∀ s, p.Always (fun _ s' => R s s') s

variable [IsPreorder σ R]

theorem Keeps.pure {a : α} : Keeps R (Pure.pure a : Prog σ ε φ α) := fun s => refl_of R s

theorem Keeps.bind {p : Prog σ ε φ α} {f : α → Prog σ ε φ β} (fst : Keeps R p)
    (snd : ∀ a, Keeps R (f a)) : Keeps R (p >>= f) := fun s =>
  always_bind.mpr ((fst s).mono fun a s' before => (snd a s').mono fun _ _ after =>
    trans_of R before after)

omit [IsPreorder σ R] in
theorem Keeps.ite {c : Prop} [Decidable c] {p q : Prog σ ε φ α} (fst : Keeps R p)
    (snd : Keeps R q) : Keeps R (if c then p else q) := by
  split
  · exact fst
  · exact snd

end MPStuBS.Prog
