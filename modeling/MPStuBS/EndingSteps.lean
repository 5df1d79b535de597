import MPStuBS.FsLogic
import MPStuBS.OperationWalks

/-! The functions without a loop of their own, and those whose loops follow a list or a
counter, come to an end on every device and in every state. -/
namespace MPStuBS

namespace Prog

variable {σ ε φ α β : Type} {f : φ}

/-- The program never ends with the fault. -/
def Avoids (f : φ) (p : Prog σ ε φ α) : Prop :=
  ∀ (disk : Disk ε) w, Meets disk (· ≠ f) p (fun _ _ => True) w

theorem Avoids.pure {a : α} : Avoids f (Pure.pure a : Prog σ ε φ α) := fun _ _ => trivial

theorem Avoids.bind {p : Prog σ ε φ α} {k : α → Prog σ ε φ β} (fst : Avoids f p)
    (snd : ∀ a, Avoids f (k a)) : Avoids f (p >>= k) := fun disk w =>
  meets_bind.mpr ((fst disk w).mono fun a w' _ => snd a disk w')

theorem Avoids.ite {c : Prop} [Decidable c] {p q : Prog σ ε φ α} (fst : Avoids f p)
    (snd : Avoids f q) : Avoids f (if c then p else q) := by
  split
  · exact fst
  · exact snd

theorem Avoids.run {p : Prog σ ε φ α} (avoids : Avoids f p) (disk : Disk ε) (w : World σ) :
    p.run disk w ≠ .error f := by
  intro ended
  have other := avoids disk w
  unfold Meets at other
  rw [ended] at other
  exact other rfl

end Prog

open Prog FsM

/-- The program comes to an end. -/
abbrev Ends {α : Type} (p : FsM α) : Prop := Avoids FsFault.endless p

/-- On no device and in no state the program runs forever. -/
def Halting : FsM.Property where
  holds _ p post := ∀ (disk : Disk Errno) w, Meets disk (· ≠ .endless) p (fun a _ => post a) w
  own _ := True
  mine _ := True
  stops f := f ≠ .endless

instance : Looks Halting where
  pure holds _ _ := holds
  bind h next disk w := meets_bind.mpr ((h disk w).mono fun a w' holds => next a holds disk w')
  fault other _ _ := other
  others other := other
  get _ w := maps_all w.state
  fix _ _ := meets_fix (fun _ _ _ => trivial) fun _ _ _ _ => trivial
  peek h disk w := h _ disk w
  unfix _ _ _ := trivial

theorem halting_set {s : Fs} : Has Halting (FsM.set s) := fun _ _ => trivial

instance : Replaces Halting where
  store _ _ _ := trivial
  markDirty _ _ _ := trivial
  forget _ _ _ := trivial
  remap _ := Looks.setInode fun _ => halting_set
  fill _ := Looks.setInode fun _ => halting_set
  sync _ _ _ := trivial
  set _ := halting_set

namespace Ends

variable {b o : Nat}

theorem get : Ends FsM.get := fun _ _ => trivial

theorem fix {n : Nat} : Ends (FsM.fix n) := fun _ _ => meets_fix (fun _ => trivial) fun _ _ => trivial

theorem load : Ends (FsM.load b) := Has.load (K := Halting) (b := b)

theorem inode : Ends (FsM.inode o) := Has.inode (K := Halting) (o := o)

theorem incRef (o : Nat) : Ends (Inode.get o) := Inode.has_get (K := Halting) o

theorem put (o : Nat) : Ends (Inode.put o) := Inode.has_put (K := Halting) o

end Ends

theorem Minix.ends_getBlock (ptr block : Nat) : Ends (getBlock ptr block false) :=
  has_getBlock_looking (K := Halting) ptr block

theorem Minix.ends_lookup (dir : Nat) (name : List UInt8) : Ends (lookup dir name) :=
  has_lookup (K := Halting) dir name

end MPStuBS
