import MPStuBS.ProgramLogic

/-! Rules for what a run does and what its commands cost together. Nothing here names a particular
program. -/
namespace MPStuBS.Prog

variable {σ ε φ α β : Type} {price : Nat → Command → Nat} {disk : Disk ε} {allowed : φ → Prop} {w : World σ}

/-- The prices of the commands of a run together. -/
def cost (price : Nat → Command → Nat) (disk : Disk ε) : Prog σ ε φ α → World σ → Nat
  | .pure _, _ => 0
  | .fault _, _ => 0
  | .get k, w => (k w.state).cost price disk w
  | .set s k, w => k.cost price disk { w with state := s }
  | .fix number k, w =>
    match disk.fails w.device.clock number with
    | some e => (k (.error e)).cost price disk { w with device := w.device.tick }
    | none => (k (.ok w.device.next)).cost price disk { w with device := (w.device.hold number).tick }
  | .load block k, w => (k (w.device.load disk block)).cost price disk w
  | .command block c k, w => price block c + k.cost price disk { w with device := w.device.exec disk block c }

/-- Running the program leads to the postcondition, with the cost, or to one of the faults. -/
def Spends (price : Nat → Command → Nat) (disk : Disk ε) (allowed : φ → Prop) (p : Prog σ ε φ α)
    (post : α → Nat → World σ → Prop) (w : World σ) : Prop :=
  match p.run disk w with
  | .ok (a, after) => post a (p.cost price disk w) after
  | .error f => allowed f

theorem cost_bind (p : Prog σ ε φ α) (f : α → Prog σ ε φ β) : ∀ w : World σ, (p.bind f).cost price disk w =
    p.cost price disk w + match p.run disk w with
      | .ok (a, after) => (f a).cost price disk after
      | .error _ => 0 := by
  induction p with
  | pure a => exact fun w => (Nat.zero_add _).symm
  | fault e => exact fun w => rfl
  | get k ih => exact fun w => ih _ w
  | set s k ih => exact fun w => ih _
  | fix number k ih =>
    intro w
    simp only [bind, cost, run]
    cases disk.fails w.device.clock number with
    | none => exact ih _ _
    | some e => exact ih _ _
  | load block k ih => exact fun w => ih _ w
  | command block c k ih =>
    intro w
    simp only [bind, cost, run, ih, Nat.add_assoc]

@[simp] theorem spends_pure {a : α} {post : α → Nat → World σ → Prop} :
    Spends price disk allowed (Pure.pure a : Prog σ ε φ α) post w ↔ post a 0 w := Iff.rfl

theorem spends_bind {p : Prog σ ε φ α} {f : α → Prog σ ε φ β} {post : β → Nat → World σ → Prop} :
    Spends price disk allowed (p >>= f) post w ↔ Spends price disk allowed p (fun a n =>
      Spends price disk allowed (f a) fun b m => post b (n + m)) w := by
  unfold Spends
  rw [show p >>= f = p.bind f from rfl, run_bind, cost_bind]
  cases p.run disk w <;> rfl

theorem Spends.mono {p : Prog σ ε φ α} {post post' : α → Nat → World σ → Prop}
    (h : Spends price disk allowed p post w) (weaker : ∀ a n after, post a n after → post' a n after) :
    Spends price disk allowed p post' w := by
  unfold Spends at h ⊢
  split
  · rename_i a after returned
    rw [returned] at h
    exact weaker a _ after h
  · rename_i f faulted
    rwa [faulted] at h

/-- The cost may be forgotten. -/
theorem Spends.meets {p : Prog σ ε φ α} {post : α → World σ → Prop}
    (h : Spends price disk allowed p (fun a _ => post a) w) : Meets disk allowed p post w := h

/-- Every command of the program is free, and its result has the property. -/
def Free (price : Nat → Command → Nat) : Prog σ ε φ α → (α → Prop) → Prop
  | .pure a, result => result a
  | .fault _, _ => True
  | .get k, result => ∀ s, (k s).Free price result
  | .set _ k, result => k.Free price result
  | .fix _ k, result => ∀ r, (k r).Free price result
  | .load _ k, result => ∀ r, (k r).Free price result
  | .command block c k, result => price block c = 0 ∧ k.Free price result

namespace Free

variable {result : α → Prop} {result' : β → Prop}

theorem bind {p : Prog σ ε φ α} {f : α → Prog σ ε φ β} (h : p.Free price result)
    (next : ∀ a, result a → (f a).Free price result') : (p >>= f).Free price result' := by
  change (p.bind f).Free price result'
  induction p with
  | pure a => exact next a h
  | fault e => exact trivial
  | get k ih => exact fun s => ih s (h s)
  | set s k ih => exact ih h
  | fix number k ih => exact fun r => ih r (h r)
  | load block k ih => exact fun r => ih r (h r)
  | command block c k ih => exact ⟨h.1, ih h.2⟩

theorem ite {c : Prop} [Decidable c] {p q : Prog σ ε φ α} (fst : p.Free price result) (snd : q.Free price result) :
    (if c then p else q).Free price result := by
  split
  · exact fst
  · exact snd

theorem cost {p : Prog σ ε φ α} (free : p.Free price result) : ∀ w : World σ, p.cost price disk w = 0 := by
  induction p with
  | pure a => exact fun w => rfl
  | fault e => exact fun w => rfl
  | get k ih => exact fun w => ih _ (free _) w
  | set s k ih => exact fun w => ih free _
  | fix number k ih =>
    intro w
    simp only [Prog.cost]
    split <;> exact ih _ (free _) _
  | load block k ih => exact fun w => ih _ (free _) w
  | command block c k ih =>
    intro w
    simp only [Prog.cost, free.1, ih free.2]

end Free

variable {result : α → Prop}

/-- A part that costs nothing does what it does. -/
theorem Meets.spends {p : Prog σ ε φ α} {post : α → World σ → Prop} (h : Meets disk allowed p post w)
    (free : p.Free price result) : Spends price disk allowed p (fun a n after => n = 0 ∧ post a after) w := by
  unfold Meets at h
  unfold Spends
  rw [free.cost]
  split
  · rename_i a after returned
    rw [returned] at h
    exact ⟨rfl, h⟩
  · rename_i f faulted
    rwa [faulted] at h

theorem spends_last {p : Prog σ ε φ α} {post : α → Nat → World σ → Prop} (free : p.Free price result)
    (h : Meets disk allowed p (fun a => post a 0) w) : Spends price disk allowed p post w := by
  refine (h.spends free).mono ?_
  rintro a n after ⟨rfl, holds⟩
  exact holds

/-- A free part comes first. -/
theorem spends_first {p : Prog σ ε φ α} {f : α → Prog σ ε φ β} {post : β → Nat → World σ → Prop} (free : p.Free price result)
    (h : Meets disk allowed p (fun a => Spends price disk allowed (f a) post) w) :
    Spends price disk allowed (p >>= f) post w := by
  refine spends_bind.mpr ((h.spends free).mono ?_)
  rintro a n after ⟨rfl, rest⟩
  simpa only [Nat.zero_add] using rest

end MPStuBS.Prog
