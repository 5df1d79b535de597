import MPStuBS.ProgramLogic

/-! The parts that a program performs while it runs. Nothing here names a particular program. -/
namespace MPStuBS.Prog

variable {σ ε φ α β γ : Type} {disk : Disk ε} {w w' : World σ}

/-- A first part ran before the rest did. -/
theorem run_bind_ok {p : Prog σ ε φ α} {f : α → Prog σ ε φ β} {b : β}
    (ran : (p >>= f).run disk w = .ok (b, w')) :
    ∃ a w₁, p.run disk w = .ok (a, w₁) ∧ (f a).run disk w₁ = .ok (b, w') := by
  have split : (p >>= f).run disk w = _ := run_bind p f w
  rw [ran] at split
  cases first : p.run disk w with
  | error e =>
    rw [first] at split
    cases split
  | ok r =>
    rw [first] at split
    exact ⟨r.1, r.2, rfl, split.symm⟩

/-- The first part or the rest stopped with the fault. -/
theorem run_bind_error {p : Prog σ ε φ α} {f : α → Prog σ ε φ β} {e : φ} (ran : (p >>= f).run disk w = .error e) :
    p.run disk w = .error e ∨ ∃ a w₁, p.run disk w = .ok (a, w₁) ∧ (f a).run disk w₁ = .error e := by
  have split : (p >>= f).run disk w = _ := run_bind p f w
  rw [ran] at split
  cases first : p.run disk w with
  | error e' =>
    rw [first] at split
    cases split
    exact .inl rfl
  | ok r =>
    rw [first] at split
    exact .inr ⟨r.1, r.2, rfl, split.symm⟩

theorem run_bind_of {p : Prog σ ε φ α} {f : α → Prog σ ε φ β} {a : α} {w₁ : World σ}
    (first : p.run disk w = .ok (a, w₁)) : (p >>= f).run disk w = (f a).run disk w₁ := by
  have split : (p >>= f).run disk w = _ := run_bind p f w
  rw [split, first]
  rfl

/-- A run whose outcome has been computed. -/
theorem ran_of_any (disk : Disk ε) (p : Prog σ ε φ α) (w : World σ) (check : α → World σ → Bool)
    (checked : (p.run disk w).toOption.any (fun r => check r.1 r.2) = true) :
    ∃ a w', p.run disk w = .ok (a, w') ∧ check a w' = true := by
  cases ran : p.run disk w with
  | error f =>
    rw [ran] at checked
    cases checked
  | ok r =>
    rw [ran] at checked
    exact ⟨r.1, r.2, rfl, checked⟩

/-- The program, run from a world, performs this part from `w₁` on, where it ends with the result
`b` in `w₂`. -/
inductive Performs (disk : Disk ε) (part : Prog σ ε φ β) (w₁ : World σ) (b : β) (w₂ : World σ) :
    {α : Type} → Prog σ ε φ α → World σ → Prop
  | here (ran : part.run disk w₁ = .ok (b, w₂)) : Performs disk part w₁ b w₂ part w₁
  | first {α γ : Type} {p : Prog σ ε φ α} {f : α → Prog σ ε φ γ} {w : World σ}
      (inside : Performs disk part w₁ b w₂ p w) : Performs disk part w₁ b w₂ (p >>= f) w
  | later {α γ : Type} {p : Prog σ ε φ α} {f : α → Prog σ ε φ γ} {a : α} {w w' : World σ}
      (ran : p.run disk w = .ok (a, w')) (rest : Performs disk part w₁ b w₂ (f a) w') :
      Performs disk part w₁ b w₂ (p >>= f) w

theorem Performs.ran {part : Prog σ ε φ β} {w₁ w₂ : World σ} {b : β} {p : Prog σ ε φ α}
    (performs : Performs disk part w₁ b w₂ p w) : part.run disk w₁ = .ok (b, w₂) := by
  induction performs with
  | here ran => exact ran
  | first inside ih => exact ih
  | later ran rest ih => exact ih

end MPStuBS.Prog
