import MPStuBS.StateLogic

/-! Which faults a program can end with, whatever the device answers. Nothing here names a
particular program. -/
namespace MPStuBS.Prog

variable {σ ε φ α β : Type} {allowed : φ → Prop}

/-- The program returns to the postcondition or stops with one of the allowed faults. -/
def Safe (allowed : φ → Prop) : Prog σ ε φ α → (α → σ → Prop) → σ → Prop
  | .pure a, post, s => post a s
  | .fault f, _, _ => allowed f
  | .get k, post, s => (k s).Safe allowed post s
  | .set s k, post, _ => k.Safe allowed post s
  | .fix _ k, post, s => ∀ r, (k r).Safe allowed post s
  | .load _ k, post, s => ∀ r, (k r).Safe allowed post s
  | .command _ _ k, post, s => k.Safe allowed post s

theorem Safe.mono {p : Prog σ ε φ α} {post post' : α → σ → Prop} :
    ∀ {s : σ}, p.Safe allowed post s → (∀ a s', post a s' → post' a s') → p.Safe allowed post' s := by
  induction p with
  | pure a => exact fun h weaker => weaker a _ h
  | fault f => exact fun h _ => h
  | get k ih => exact fun h weaker => ih _ h weaker
  | set s' k ih => exact fun h weaker => ih h weaker
  | fix n k ih => exact fun h weaker r => ih r (h r) weaker
  | load b k ih => exact fun h weaker r => ih r (h r) weaker
  | command b c k ih => exact fun h weaker => ih h weaker

/-- What always holds when the program returns may be added. -/
theorem Safe.and {p : Prog σ ε φ α} {post post' : α → σ → Prop} :
    ∀ {s : σ}, p.Safe allowed post s → p.Always post' s → p.Safe allowed (fun a s' => post a s' ∧ post' a s') s := by
  induction p with
  | pure a => exact fun h h' => ⟨h, h'⟩
  | fault f => exact fun h _ => h
  | get k ih => exact fun h h' => ih _ h h'
  | set s' k ih => exact fun h h' => ih h h'
  | fix n k ih => exact fun h h' r => ih r (h r) (h' r)
  | load b k ih => exact fun h h' r => ih r (h r) (h' r)
  | command b c k ih => exact fun h h' => ih h h'

@[simp] theorem safe_pure {a : α} {post : α → σ → Prop} {s : σ} :
    (Pure.pure a : Prog σ ε φ α).Safe allowed post s ↔ post a s := Iff.rfl

@[simp] theorem safe_bind {p : Prog σ ε φ α} {f : α → Prog σ ε φ β} {post : β → σ → Prop} :
    ∀ {s : σ}, (p >>= f).Safe allowed post s ↔ p.Safe allowed (fun a s' => (f a).Safe allowed post s') s := by
  change ∀ {s : σ}, (p.bind f).Safe allowed post s ↔ _
  induction p with
  | pure a => exact Iff.rfl
  | fault f => exact Iff.rfl
  | get k ih => exact ih _
  | set s' k ih => exact ih
  | fix n k ih => exact forall_congr' fun r => ih r
  | load b k ih => exact forall_congr' fun r => ih r
  | command b c k ih => exact ih

theorem Safe.meets {disk : Disk ε} {p : Prog σ ε φ α} {post : α → σ → Prop} :
    ∀ {w : World σ}, p.Safe allowed post w.state → Meets disk allowed p (fun a w' => post a w'.state) w := by
  induction p with
  | pure a => exact fun h => h
  | fault f => exact fun h => h
  | get k ih => exact fun h => ih _ h
  | set s k ih =>
    intro w h
    exact ih (w := { w with state := s }) h
  | fix n k ih =>
    intro w h
    unfold Meets
    simp only [run]
    cases disk.fails w.device.clock n with
    | none => exact ih _ (w := { w with device := (w.device.hold n).tick }) (h _)
    | some e => exact ih _ (w := { w with device := w.device.tick }) (h _)
  | load b k ih => exact fun h => ih _ (h _)
  | command b c k ih =>
    intro w h
    exact ih (w := { w with device := w.device.exec disk b c }) h

theorem Safe.allow {allowed' : φ → Prop} {p : Prog σ ε φ α} {post : α → σ → Prop} (more : ∀ f, allowed f → allowed' f) :
    ∀ {s : σ}, p.Safe allowed post s → p.Safe allowed' post s := by
  induction p with
  | pure a => exact fun h => h
  | fault f => exact fun h => more f h
  | get k ih => exact fun h => ih _ h
  | set s' k ih => exact fun h => ih h
  | fix n k ih => exact fun h r => ih r (h r)
  | load b k ih => exact fun h r => ih r (h r)
  | command b c k ih => exact fun h => ih h

/-- Where every fault is allowed, only the postcondition is left. -/
theorem Always.safe {p : Prog σ ε φ α} {post : α → σ → Prop} (all : ∀ f, allowed f) :
    ∀ {s : σ}, p.Always post s → p.Safe allowed post s := by
  induction p with
  | pure a => exact fun h => h
  | fault f => exact fun _ => all f
  | get k ih => exact fun h => ih _ h
  | set s' k ih => exact fun h => ih h
  | fix n k ih => exact fun h r => ih r (h r)
  | load b k ih => exact fun h r => ih r (h r)
  | command b c k ih => exact fun h => ih h

/-- A program that cannot end with a fault that is not allowed. -/
theorem Safe.run_ne {disk : Disk ε} {p : Prog σ ε φ α} {post : α → σ → Prop} {w : World σ} {f : φ}
    (safe : p.Safe allowed post w.state) (bad : ¬ allowed f) : p.run disk w ≠ .error f := by
  intro ran
  have meets : Meets disk allowed p _ w := safe.meets
  unfold Meets at meets
  rw [ran] at meets
  exact bad meets

end MPStuBS.Prog
