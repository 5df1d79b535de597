import MPStuBS.HandleSteps
import MPStuBS.ZoneBitmap

/-! Programs that look at blocks without changing them, or their own state. -/
namespace MPStuBS

/-- What was held before the `n`-th block is held as it was, and shows the same. -/
structure Device.Peeked {ε : Type} (disk : Disk ε) (n : Nat) (d d' : Device) : Prop where
  next : d.next ≤ d'.next
  number : ∀ b < n, d'.number b = d.number b
  shows : ∀ owned view, (∀ b ∈ owned, b < n) → d.Shows disk owned view → d'.Shows disk owned view

theorem Device.Peeked.refl {ε : Type} (disk : Disk ε) (n : Nat) (d : Device) : d.Peeked disk n d :=
  ⟨Nat.le_refl _, fun _ _ => rfl, fun _ _ _ => id⟩

theorem Device.Peeked.trans {ε : Type} {disk : Disk ε} {n : Nat} {d d' d'' : Device}
    (fst : d.Peeked disk n d') (snd : d'.Peeked disk n d'') : d.Peeked disk n d'' :=
  ⟨Nat.le_trans fst.next snd.next, fun b early => (snd.number b early).trans (fst.number b early),
    fun owned view early shows => snd.shows owned view early (fst.shows owned view early shows)⟩

namespace Prog

variable {σ ε φ α β : Type} {n : Nat}

/-- The program only fixes, reads and releases blocks, and releases none that was fixed before the
`n`-th. Its result has the property. -/
def Peeks (n : Nat) : Prog σ ε φ α → (α → Prop) → Prop
  | .pure a, post => post a
  | .fault _, _ => True
  | .get k, post => ∀ s, (k s).Peeks n post
  | .set _ _, _ => False
  | .fix _ k, post => ∀ r, (∀ b, r = .ok b → n ≤ b) → (k r).Peeks n post
  | .load _ k, post => ∀ r, (k r).Peeks n post
  | .command b c k, post => (n ≤ b ∧ c = .unfix) ∧ k.Peeks n post

theorem Peeks.bind {p : Prog σ ε φ α} {f : α → Prog σ ε φ β} {post : α → Prop} {post' : β → Prop}
    (h : p.Peeks n post) (next : ∀ a, post a → (f a).Peeks n post') : (p >>= f).Peeks n post' := by
  change (p.bind f).Peeks n post'
  induction p with
  | pure a => exact next a h
  | fault f => trivial
  | get k ih => exact fun s => ih s (h s)
  | set s k ih => exact h.elim
  | fix m k ih => exact fun r late => ih r (h r late)
  | load b k ih => exact fun r => ih r (h r)
  | command b c k ih => exact ⟨h.1, ih h.2⟩

theorem Peeks.after {disk : Disk ε} {p : Prog σ ε φ α} {post : α → Prop} (peeks : p.Peeks n post) :
    ∀ {w : World σ}, n ≤ w.device.next → After disk p
      (fun a w' => post a ∧ w'.state = w.state ∧ w.device.Peeked disk n w'.device) w := by
  induction p with
  | pure a => exact fun _ => ⟨peeks, rfl, .refl _ _ _⟩
  | fault f => exact fun _ => trivial
  | get k ih => exact fun early => ih _ (peeks _) early
  | set s k ih => exact peeks.elim
  | fix m k ih =>
    intro w early
    unfold After Meets
    simp only [run]
    split <;> rename_i ran <;> split at ran
    · have ticked : w.device.Peeked disk n w.device.tick :=
        ⟨Nat.le_refl _, fun _ _ => rfl, fun _ _ _ shows => shows.tick⟩
      obtain ⟨result, state, peeked⟩ := (ih _ (peeks _ (by simp))
        (w := ⟨w.state, w.device.tick⟩) early).of_run ran
      exact ⟨result, state, ticked.trans peeked⟩
    · have late : ∀ b, (Except.ok w.device.next : Except ε Nat) = .ok b → n ≤ b := by
        rintro b ⟨⟩
        exact early
      have held : w.device.Peeked disk n (w.device.hold m).tick :=
        ⟨Nat.le_succ _, fun b before => Device.number_hold_of_ne (by omega), fun _ _ _ shows => shows.hold m⟩
      obtain ⟨result, state, peeked⟩ := (ih _ (peeks _ late)
        (w := ⟨w.state, (w.device.hold m).tick⟩) (Nat.le_succ_of_le early)).of_run ran
      exact ⟨result, state, held.trans peeked⟩
    · trivial
    · trivial
  | load b k ih => exact fun early => ih _ (peeks _) early
  | command b c k ih =>
    intro w early
    obtain ⟨⟨late, rfl⟩, peeks⟩ := peeks
    have released : w.device.Peeked disk n (w.device.exec disk b .unfix) := by
      refine ⟨?_, fun b' _ => Device.number_exec _ b', fun owned view before shows => shows.release ?_⟩
      · rw [Device.next_exec]
      · exact fun member => absurd (before b member) (Nat.not_lt.mpr late)
    refine Meets.mono (ih peeks (w := ⟨w.state, w.device.exec disk b .unfix⟩) ?_) ?_
    · rwa [Device.next_exec]
    · rintro a w' ⟨result, state, peeked⟩
      exact ⟨result, state, released.trans peeked⟩

end Prog

open Prog FsM

/-- A mounted file system after its blocks have been looked at. -/
theorem Stored.peeked {disk : Disk Errno} {w w' : World Fs} {view : Nat → Bytes}
    (stored : Stored disk w [] [] view) (state : w'.state = w.state)
    (peeked : w.device.Peeked disk w.device.next w'.device) : Stored disk w' [] [] view := by
  have shows : w'.device.Shows disk ([] ++ ([] ++ w.state.mapHandles)) view :=
    peeked.shows _ _ (fun b member => stored.holds.shows.early member) stored.holds.shows
  exact stored.follow (by rw [state]) (by rw [state]) (by rw [state])
    ⟨peeked.next, fun b early => peeked.number b early⟩ ⟨shows, by simp⟩

/-- Of the blocks that were fixed before the `n`-th the program releases none, and it changes nothing. -/
def Peeking (n : Nat) : FsM.Property where
  holds _ p post := p.Peeks n post
  own b := n ≤ b
  mine _ := True
  stops _ := True

variable {n : Nat}

instance : Looks (Peeking n) where
  pure holds := holds
  bind := Prog.Peeks.bind
  fault _ := trivial
  others _ := trivial
  get s := maps_all s
  fix _ late := late
  peek h := h
  unfix late := ⟨⟨late, rfl⟩, trivial⟩

theorem Minix.peeks_getBlock (ptr block : Nat) : (getBlock ptr block false).Peeks n fun _ => True :=
  has_getBlock_looking (K := Peeking n) ptr block

theorem Minix.peeks_findDirent (dir : Nat) (name : List UInt8) :
    (findDirent dir name).Peeks n fun r => ∀ b i, r = .ok (some (b, i)) → n ≤ b :=
  gives_findDirent (K := Peeking n) dir name

theorem Filesystem.peeks_getLink (ptr : Nat) : (getLink ptr).Peeks n fun _ => True :=
  has_getLink (K := Peeking n) trivial ptr

end MPStuBS
