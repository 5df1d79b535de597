import MPStuBS.ProgramLogic
import Mathlib.Data.List.Nodup

/-! What a program sees on a device of either kind while it holds some of the blocks: a
view of all blocks that changes only where the program stores. Nothing here names a
particular program. -/
namespace MPStuBS.Device

variable {ε : Type}

/-- The block that a handle stands for. -/
def number (d : Device) (b : Nat) : Nat := (d.blocks b).number

/-- Every block is as in the view: an owned one where it is held, any other one on the
device. What is held without being owned has no changes. -/
structure Shows (disk : Disk ε) (d : Device) (owned : List Nat) (view : Nat → Bytes) : Prop where
  fresh : ∀ b, d.next ≤ b → (d.blocks b).present = false
  held : ∀ b ∈ owned, (d.blocks b).present = true
  apart : (owned.map d.number).Nodup
  shown : ∀ b ∈ owned, d.load disk b = some (view (d.number b))
  rest : ∀ n ∉ owned.map d.number, d.contents n = view n
  clean : disk.copies = true → ∀ b ∉ owned, (d.blocks b).dirty = false

/-- No change of the block is lost when it is released. -/
def Kept (disk : Disk ε) (d : Device) (b : Nat) : Prop :=
  disk.copies = true → (d.blocks b).dirty = true ∨ (d.blocks b).copy = d.contents (d.number b)

/-- What was fixed before still stands for the same block. -/
structure Follows (d d' : Device) : Prop where
  next : d.next ≤ d'.next
  number : ∀ b, b < d.next → d'.number b = d.number b

theorem Follows.refl (d : Device) : d.Follows d := ⟨Nat.le_refl _, fun _ _ => rfl⟩

theorem Follows.trans {d d' d'' : Device} (fst : d.Follows d') (snd : d'.Follows d'') : d.Follows d'' :=
  ⟨Nat.le_trans fst.next snd.next, fun b early =>
    (snd.number b (Nat.lt_of_lt_of_le early fst.next)).trans (fst.number b early)⟩

variable {disk : Disk ε} {d : Device} {owned : List Nat} {view : Nat → Bytes} {b : Nat}

section Numbers

theorem number_setBlock {blk : Block} (same : blk.number = d.number b) (b' : Nat) :
    (d.setBlock b blk).number b' = d.number b' := by
  by_cases here : b' = b
  · subst here
    simpa [number] using same
  · simp [number, setBlock_of_ne _ here]

@[simp] theorem number_tick (b' : Nat) : d.tick.number b' = d.number b' := rfl

theorem number_sync (b' : Nat) : (d.sync disk b).number b' = d.number b' := by
  simp only [sync]
  split
  · exact number_setBlock (d := d.setContents _ _) (by rfl) b'
  · rfl

@[simp] theorem number_exec (c : Command) (b' : Nat) : (d.exec disk b c).number b' = d.number b' := by
  cases c with
  | store bytes =>
    simp only [exec]
    split
    · exact number_setBlock (by rfl) b'
    · rfl
  | markDirty => exact number_setBlock (by rfl) b'
  | clearDirty => exact number_setBlock (by rfl) b'
  | sync => exact number_sync b'
  | unfix => exact (number_setBlock (d := d.sync disk b) (by rfl) b').trans (number_sync b')

theorem next_sync : (d.sync disk b).next = d.next := by
  simp only [sync]
  split <;> rfl

@[simp] theorem next_exec (c : Command) : (d.exec disk b c).next = d.next := by
  cases c with
  | store bytes =>
    simp only [exec]
    split <;> rfl
  | markDirty => rfl
  | clearDirty => rfl
  | sync => exact next_sync
  | unfix => exact next_sync

theorem follows_exec (c : Command) : d.Follows (d.exec disk b c) :=
  ⟨Nat.le_of_eq (next_exec c).symm, fun b' _ => number_exec c b'⟩

theorem follows_tick : d.Follows d.tick := ⟨Nat.le_refl _, fun _ _ => rfl⟩

theorem number_hold (n : Nat) : (d.hold n).tick.number d.next = n :=
  congrArg Block.number (blocks_hold d n)

theorem number_hold_of_ne {n b' : Nat} (apart : b' ≠ d.next) : (d.hold n).tick.number b' = d.number b' :=
  congrArg Block.number (setBlock_of_ne _ apart)

theorem follows_hold (n : Nat) : d.Follows (d.hold n).tick :=
  ⟨Nat.le_succ _, fun _ early => number_hold_of_ne (Nat.ne_of_lt early)⟩

/-- What a program fixes gets a new handle. -/
theorem run_follows {σ φ α : Type} (p : Prog σ ε φ α) : ∀ {w w' : World σ} {a : α},
    p.run disk w = .ok (a, w') → w.device.Follows w'.device := by
  induction p with
  | pure a =>
    intro w w' a' returned
    cases returned
    exact .refl _
  | fault e => exact fun returned => nomatch returned
  | get k ih => exact fun returned => ih _ returned
  | set s k ih => exact fun returned => ih (w := ⟨s, _⟩) returned
  | fix number k ih =>
    intro w w' a returned
    simp only [Prog.run] at returned
    split at returned
    · exact follows_tick.trans (ih _ (w := ⟨w.state, _⟩) returned)
    · exact (follows_hold number).trans (ih _ (w := ⟨w.state, _⟩) returned)
  | load block k ih => exact fun returned => ih _ returned
  | command block c k ih => exact fun returned => (follows_exec c).trans (ih (w := ⟨_, _⟩) returned)

end Numbers

theorem load_eq (present : (d.blocks b).present = true) :
    d.load disk b = some (if disk.copies then (d.blocks b).copy else d.contents (d.number b)) := by
  simp only [load, present, if_true, number]

namespace Shows

variable (shows : d.Shows disk owned view)
include shows

theorem early (member : b ∈ owned) : b < d.next := by
  by_contra late
  have gone := shows.fresh b (Nat.not_lt.mp late)
  rw [shows.held b member] at gone
  cases gone

theorem ne_number {b' : Nat} (member : b ∈ owned) (member' : b' ∈ owned) (other : b' ≠ b) :
    d.number b' ≠ d.number b := fun same =>
  other (List.inj_on_of_nodup_map shows.apart member' member same)

theorem tick : d.tick.Shows disk owned view :=
  ⟨shows.fresh, shows.held, shows.apart, shows.shown, shows.rest, shows.clean⟩

theorem perm {owned' : List Nat} (same : owned.Perm owned') : d.Shows disk owned' view where
  fresh := shows.fresh
  held b member := shows.held b (same.mem_iff.mpr member)
  apart := (same.map d.number).nodup_iff.mp shows.apart
  shown b member := shows.shown b (same.mem_iff.mpr member)
  rest n absent := shows.rest n fun member => absent ((same.map d.number).mem_iff.mp member)
  clean copies b absent := shows.clean copies b fun member => absent (same.mem_iff.mp member)

theorem congr {view' : Nat → Bytes} (same : ∀ n, view' n = view n) : d.Shows disk owned view' := by
  obtain rfl : view' = view := funext same
  exact shows

/-- Fixing a block for reading only. -/
theorem hold (n : Nat) : (d.hold n).tick.Shows disk owned view := by
  have old : ∀ b ∈ owned, b ≠ d.next := fun b member => Nat.ne_of_lt (shows.early member)
  have blocks : ∀ b, b ≠ d.next → (d.hold n).tick.blocks b = d.blocks b := fun b apart =>
    setBlock_of_ne _ apart
  have numbers : owned.map (d.hold n).tick.number = owned.map d.number :=
    List.map_congr_left fun b member => number_hold_of_ne (old b member)
  refine ⟨fun b late => ?_, fun b member => ?_, ?_, fun b member => ?_, ?_, fun copies b absent => ?_⟩
  · have late : d.next + 1 ≤ b := late
    rw [blocks b (by omega)]
    exact shows.fresh b (by omega)
  · rw [blocks b (old b member)]
    exact shows.held b member
  · rw [numbers]
    exact shows.apart
  · rw [number_hold_of_ne (old b member), ← shows.shown b member]
    simp only [load, blocks b (old b member)]
    rfl
  · rw [numbers]
    exact shows.rest
  · by_cases new : b = d.next
    · subst new
      rw [blocks_hold]
    · rw [blocks b new]
      exact shows.clean copies b absent

/-- Fixing a block that is not owned yet. -/
theorem own {n : Nat} (absent : n ∉ owned.map d.number) :
    (d.hold n).tick.Shows disk (d.next :: owned) view := by
  have held := shows.hold n
  have old : ∀ b ∈ owned, b ≠ d.next := fun b member => Nat.ne_of_lt (shows.early member)
  have numbers : owned.map (d.hold n).tick.number = owned.map d.number :=
    List.map_congr_left fun b member => number_hold_of_ne (old b member)
  refine ⟨held.fresh, fun b member => ?_, ?_, fun b member => ?_, fun n' absent' => ?_,
    fun copies b absent' => held.clean copies b (by simp only [List.mem_cons, not_or] at absent'; exact absent'.2)⟩
  · rcases List.mem_cons.mp member with rfl | member
    · rw [blocks_hold]
    · exact held.held b member
  · rw [List.map_cons, number_hold, numbers]
    exact List.nodup_cons.mpr ⟨absent, shows.apart⟩
  · rcases List.mem_cons.mp member with rfl | member
    · rw [load_hold, number_hold, shows.rest n absent]
    · exact held.shown b member
  · rw [List.map_cons, List.mem_cons, not_or] at absent'
    exact held.rest n' absent'.2

theorem store (member : b ∈ owned) (bytes : Bytes) :
    (d.exec disk b (.store bytes)).Shows disk owned (Function.update view (d.number b) bytes) := by
  have numbers : owned.map (d.exec disk b (.store bytes)).number = owned.map d.number :=
    List.map_congr_left fun b' _ => number_exec _ b'
  have rest : ∀ n ∉ owned.map d.number, n ≠ d.number b := by
    rintro n absent rfl
    exact absent (List.mem_map_of_mem member)
  have present : ∀ b', ((d.exec disk b (.store bytes)).blocks b').present = (d.blocks b').present := by
    intro b'
    simp only [exec]
    split
    · by_cases here : b' = b
      · subst here
        simp
      · rw [setBlock_of_ne _ here]
    · rfl
  have dirty : ∀ b', ((d.exec disk b (.store bytes)).blocks b').dirty = (d.blocks b').dirty := by
    intro b'
    simp only [exec]
    split
    · by_cases here : b' = b
      · subst here
        simp
      · rw [setBlock_of_ne _ here]
    · rfl
  refine ⟨fun b' late => ?_, fun b' member' => ?_, ?_, fun b' member' => ?_, fun n absent => ?_,
    fun copies b' absent => ?_⟩
  · rw [next_exec] at late
    rw [present]
    exact shows.fresh b' late
  · rw [present]
    exact shows.held b' member'
  · rw [numbers]
    exact shows.apart
  · have before := shows.shown b' member'
    rw [load_eq ((present b').trans (shows.held b' member')), number_exec]
    rw [load_eq (shows.held b' member')] at before
    by_cases here : b' = b
    · subst here
      rw [Function.update_self]
      simp only [exec]
      split <;> simp [setContents, number]
    · have other := shows.ne_number member member' here
      rw [Function.update_of_ne other, ← before]
      simp only [exec]
      split
      · rw [setBlock_of_ne _ here]
      · exact congrArg some (Function.update_of_ne other _ _)
  · rw [numbers] at absent
    rw [Function.update_of_ne (rest n absent), ← shows.rest n absent]
    simp only [exec]
    split
    · rfl
    · exact Function.update_of_ne (rest n absent) _ _
  · rw [dirty]
    exact shows.clean copies b' absent

theorem markDirty (member : b ∈ owned) : (d.exec disk b .markDirty).Shows disk owned view := by
  have blocks : ∀ b', b' ≠ b → (d.exec disk b .markDirty).blocks b' = d.blocks b' := fun b' other =>
    setBlock_of_ne _ other
  have here : (d.exec disk b .markDirty).blocks b = { d.blocks b with dirty := true } := setBlock_self _
  have numbers : owned.map (d.exec disk b .markDirty).number = owned.map d.number :=
    List.map_congr_left fun b' _ => number_exec _ b'
  have present : ∀ b', ((d.exec disk b .markDirty).blocks b').present = (d.blocks b').present := by
    intro b'
    by_cases same : b' = b
    · rw [same, here]
    · rw [blocks b' same]
  refine ⟨fun b' late => ?_, fun b' member' => ?_, ?_, fun b' member' => ?_, ?_, fun copies b' absent => ?_⟩
  · rw [present]
    exact shows.fresh b' late
  · rw [present]
    exact shows.held b' member'
  · rw [numbers]
    exact shows.apart
  · rw [number_exec, ← shows.shown b' member']
    by_cases same : b' = b
    · simp only [load, same, here]
      rfl
    · simp only [load, blocks b' same]
      rfl
  · rw [numbers]
    exact shows.rest
  · rw [blocks b' (by rintro rfl; exact absent member)]
    exact shows.clean copies b' absent

/-- Writing back what is held changes nothing that is seen. -/
theorem sync (member : b ∈ owned) : (d.sync disk b).Shows disk owned view := by
  simp only [Device.sync]
  split
  · rename_i written
    have seen := shows.shown b member
    rw [load_eq (shows.held b member), if_pos written.1] at seen
    have copy : (d.blocks b).copy = view (d.number b) := Option.some.inj seen
    set d' := (d.setContents (d.blocks b).number (d.blocks b).copy).setBlock b
      { d.blocks b with dirty := false } with d'Def
    have blocks : ∀ b', b' ≠ b → d'.blocks b' = d.blocks b' := fun b' other =>
      setBlock_of_ne (d := d.setContents _ _) _ other
    have here : d'.blocks b = { d.blocks b with dirty := false } := setBlock_self _
    have number : ∀ b', d'.number b' = d.number b' := number_setBlock (d := d.setContents _ _) (by rfl)
    have numbers : owned.map d'.number = owned.map d.number :=
      List.map_congr_left fun b' _ => number b'
    have present : ∀ b', (d'.blocks b').present = (d.blocks b').present := by
      intro b'
      by_cases same : b' = b
      · rw [same, here]
      · rw [blocks b' same]
    have copies : ∀ b', (d'.blocks b').copy = (d.blocks b').copy := by
      intro b'
      by_cases same : b' = b
      · rw [same, here]
      · rw [blocks b' same]
    refine ⟨fun b' late => ?_, fun b' member' => ?_, ?_, fun b' member' => ?_, fun n absent => ?_,
      fun copies b' absent => ?_⟩
    · rw [present]
      exact shows.fresh b' late
    · rw [present]
      exact shows.held b' member'
    · rw [numbers]
      exact shows.apart
    · have before := shows.shown b' member'
      rw [load_eq (shows.held b' member'), if_pos written.1] at before
      rw [load_eq ((present b').trans (shows.held b' member')), if_pos written.1, copies, number, before]
    · rw [numbers] at absent
      have other : n ≠ d.number b := by
        rintro rfl
        exact absent (List.mem_map_of_mem member)
      rw [← shows.rest n absent]
      exact Function.update_of_ne other _ _
    · rw [blocks b' (by rintro rfl; exact absent member)]
      exact shows.clean copies b' absent
  · exact shows

end Shows

theorem sync_contents (kept : d.Kept disk b) (copies : disk.copies = true) :
    ((d.sync disk b).blocks b).copy = (d.sync disk b).contents (d.number b) ∧
      ((d.sync disk b).blocks b).dirty = false := by
  simp only [Device.sync, copies, true_and]
  split
  · simp [setContents, number]
  · rename_i clean
    exact ⟨(kept copies).resolve_left clean, by simpa using clean⟩

/-- Letting go of a block that is not owned. -/
theorem Shows.retire (shows : d.Shows disk owned view) (free : b ∉ owned) :
    (d.setBlock b { d.blocks b with present := false }).Shows disk owned view := by
  have other : ∀ b' ∈ owned, b' ≠ b := by
    rintro b' member rfl
    exact free member
  have number : ∀ b', (d.setBlock b { d.blocks b with present := false }).number b' = d.number b' :=
    number_setBlock (by rfl)
  have numbers : owned.map (d.setBlock b { d.blocks b with present := false }).number
      = owned.map d.number := List.map_congr_left fun b' _ => number b'
  refine ⟨fun b' late => ?_, fun b' member => ?_, ?_, fun b' member => ?_, ?_, fun copies b' absent => ?_⟩
  · by_cases here : b' = b
    · subst here
      simp
    · rw [setBlock_of_ne _ here]
      exact shows.fresh b' late
  · rw [setBlock_of_ne _ (other b' member)]
    exact shows.held b' member
  · rw [numbers]
    exact shows.apart
  · rw [number, ← shows.shown b' member]
    simp only [load, setBlock_of_ne _ (other b' member)]
    rfl
  · rw [numbers]
    exact shows.rest
  · by_cases here : b' = b
    · subst here
      simpa using shows.clean copies b' absent
    · rw [setBlock_of_ne _ here]
      exact shows.clean copies b' absent

/-- Letting go of the last block that was taken leaves what is stored for it. -/
theorem Shows.drop (shows : d.Shows disk (b :: owned) view)
    (clean : disk.copies = true → (d.blocks b).dirty = false) :
    (d.setBlock b { d.blocks b with present := false }).Shows disk owned
      (Function.update view (d.number b) (d.contents (d.number b))) := by
  have apart := List.nodup_cons.mp shows.apart
  have fresh : b ∉ owned := fun inRest => apart.1 (List.mem_map_of_mem inRest)
  refine Shows.retire ⟨shows.fresh, fun b' member => shows.held b' (by simp [member]), apart.2,
    fun b' member => ?_, fun n absent => ?_, fun copies b' absent => ?_⟩ fresh
  · rw [shows.shown b' (by simp [member]), Function.update_of_ne]
    exact fun same => apart.1 (same ▸ List.mem_map_of_mem member)
  · by_cases here : n = d.number b
    · subst here
      rw [Function.update_self]
    · rw [Function.update_of_ne here]
      exact shows.rest n (by simpa [here] using absent)
  · by_cases here : b' = b
    · rw [here, clean copies]
    · exact shows.clean copies b' (by simp [here, absent])

/-- Releasing the last block that was taken, without losing a change. -/
theorem Shows.unfix (shows : d.Shows disk (b :: owned) view) (kept : d.Kept disk b) :
    (d.exec disk b .unfix).Shows disk owned view := by
  have member : b ∈ b :: owned := by simp
  have synced := shows.sync member
  have written := sync_contents kept
  have same : (d.sync disk b).number b = d.number b := number_sync b
  refine (synced.drop fun copies => (written copies).2).congr fun n => ?_
  by_cases here : n = (d.sync disk b).number b
  · subst here
    have seen := synced.shown b member
    rw [load_eq (synced.held b member)] at seen
    rw [Function.update_self, ← Option.some.inj seen]
    split
    · rename_i copies
      rw [(written copies).1, same]
    · rfl
  · rw [Function.update_of_ne here]

/-- Dropping the changes of the last block that was taken. -/
theorem Shows.forget (shows : d.Shows disk (b :: owned) view) : ∃ bytes,
    ((d.exec disk b .clearDirty).exec disk b .unfix).Shows disk owned
      (Function.update view (d.number b) bytes) := by
  set d' := d.exec disk b .clearDirty with d'Def
  have blocks : ∀ b', b' ≠ b → d'.blocks b' = d.blocks b' := fun b' other => setBlock_of_ne _ other
  have here : d'.blocks b = { d.blocks b with dirty := false } := setBlock_self _
  have number : ∀ b', d'.number b' = d.number b' := fun b' => number_exec .clearDirty b'
  have fields : ∀ b', (d'.blocks b').present = (d.blocks b').present ∧
      (d'.blocks b').copy = (d.blocks b').copy := by
    intro b'
    by_cases same : b' = b
    · rw [same, here]
      exact ⟨rfl, rfl⟩
    · rw [blocks b' same]
      exact ⟨rfl, rfl⟩
  have numbers : (b :: owned).map d'.number = (b :: owned).map d.number :=
    List.map_congr_left fun b' _ => number b'
  have cleared : d'.Shows disk (b :: owned) view := by
    refine ⟨fun b' late => ?_, fun b' member => ?_, ?_, fun b' member => ?_, ?_, fun copies b' absent => ?_⟩
    · rw [(fields b').1]
      exact shows.fresh b' late
    · rw [(fields b').1]
      exact shows.held b' member
    · rw [numbers]
      exact shows.apart
    · rw [number, ← shows.shown b' member, load_eq (((fields b').1).trans (shows.held b' member)),
        load_eq (shows.held b' member), (fields b').2, number]
      rfl
    · rw [numbers]
      exact shows.rest
    · rw [blocks b' (by rintro rfl; simp at absent)]
      exact shows.clean copies b' absent
  have clean : (d'.blocks b).dirty = false := by rw [here]
  have kept : d'.sync disk b = d' := by simp [Device.sync, clean]
  refine ⟨d'.contents (d'.number b), ?_⟩
  have dropped := cleared.drop fun _ => clean
  rw [number] at dropped ⊢
  simp only [exec, kept]
  exact dropped

/-- Releasing a block that was not changed. -/
theorem Shows.release (shows : d.Shows disk owned view) (free : b ∉ owned) :
    (d.exec disk b .unfix).Shows disk owned view := by
  have kept : d.sync disk b = d := by
    simp only [Device.sync]
    split
    · rename_i written
      rw [shows.clean written.1 b free] at written
      exact absurd written.2 Bool.false_ne_true
    · rfl
  simp only [exec, kept]
  exact shows.retire free

theorem dirty_store (bytes : Bytes) (b' : Nat) :
    ((d.exec disk b (.store bytes)).blocks b').dirty = (d.blocks b').dirty := by
  simp only [exec]
  split
  · by_cases here : b' = b
    · subst here
      simp
    · rw [setBlock_of_ne _ here]
  · rfl

theorem kept_hold (n : Nat) : (d.hold n).tick.Kept disk d.next := fun _ => .inr (by
  rw [number_hold, blocks_hold]
  rfl)

theorem kept_markDirty : (d.exec disk b .markDirty).Kept disk b := fun _ => .inl (by simp [exec])

theorem Kept.hold {b' n : Nat} (kept : d.Kept disk b') (early : b' < d.next) :
    (d.hold n).tick.Kept disk b' := by
  have same : (d.hold n).tick.blocks b' = d.blocks b' := setBlock_of_ne _ (Nat.ne_of_lt early)
  intro copies
  rw [number_hold_of_ne (Nat.ne_of_lt early), same]
  exact kept copies

theorem blocks_exec_of_ne {b' : Nat} (c : Command) (other : b' ≠ b) :
    (d.exec disk b c).blocks b' = d.blocks b' := by
  cases c with
  | store bytes =>
    simp only [exec]
    split
    · exact setBlock_of_ne _ other
    · rfl
  | markDirty => exact setBlock_of_ne _ other
  | clearDirty => exact setBlock_of_ne _ other
  | sync =>
    simp only [exec, Device.sync]
    split
    · exact setBlock_of_ne (d := d.setContents _ _) _ other
    · rfl
  | unfix =>
    simp only [exec]
    rw [setBlock_of_ne _ other]
    simp only [Device.sync]
    split
    · exact setBlock_of_ne (d := d.setContents _ _) _ other
    · rfl

theorem contents_exec_of_ne {n : Nat} (c : Command) (other : n ≠ d.number b) :
    (d.exec disk b c).contents n = d.contents n := by
  cases c with
  | store bytes =>
    simp only [exec]
    split
    · rfl
    · exact Function.update_of_ne other _ _
  | markDirty => rfl
  | clearDirty => rfl
  | sync =>
    simp only [exec, Device.sync]
    split
    · exact Function.update_of_ne other _ _
    · rfl
  | unfix =>
    simp only [exec, Device.sync, setBlock_contents]
    split
    · exact Function.update_of_ne other _ _
    · rfl

theorem Kept.exec {b' : Nat} (kept : d.Kept disk b') (c : Command) (other : b' ≠ b)
    (apart : d.number b' ≠ d.number b) : (d.exec disk b c).Kept disk b' := by
  intro copies
  rw [number_exec, blocks_exec_of_ne c other, contents_exec_of_ne c apart]
  exact kept copies

/-- The blocks in `kept` can be released at any time, those in `pinned` may have changes
that are not marked. -/
structure Holds (disk : Disk ε) (d : Device) (kept pinned : List Nat) (view : Nat → Bytes) : Prop where
  shows : d.Shows disk (kept ++ pinned) view
  kept : ∀ b ∈ kept, d.Kept disk b

namespace Holds

variable {kept pinned : List Nat}

theorem tick (holds : d.Holds disk kept pinned view) : d.tick.Holds disk kept pinned view :=
  ⟨holds.shows.tick, holds.kept⟩

theorem perm {kept' pinned' : List Nat} (holds : d.Holds disk kept pinned view)
    (same : kept.Perm kept') (same' : pinned.Perm pinned') : d.Holds disk kept' pinned' view :=
  ⟨holds.shows.perm (same.append same'), fun b member => holds.kept b (same.mem_iff.mpr member)⟩

theorem hold (holds : d.Holds disk kept pinned view) (n : Nat) :
    (d.hold n).tick.Holds disk kept pinned view :=
  ⟨holds.shows.hold n, fun b member => (holds.kept b member).hold (holds.shows.early (by simp [member]))⟩

theorem own {n : Nat} (holds : d.Holds disk kept pinned view)
    (absent : n ∉ (kept ++ pinned).map d.number) :
    (d.hold n).tick.Holds disk (d.next :: kept) pinned view := by
  refine ⟨holds.shows.own absent, fun b member => ?_⟩
  rcases List.mem_cons.mp member with rfl | member
  · exact kept_hold n
  · exact (holds.kept b member).hold (holds.shows.early (by simp [member]))

/-- The keptness of the others while something is done to one owned block. -/
theorem others (holds : d.Holds disk kept pinned view) (c : Command) (member : b ∈ kept ++ pinned) :
    ∀ b' ∈ kept, b' ≠ b → (d.exec disk b c).Kept disk b' := fun b' member' other =>
  (holds.kept b' member').exec c other (holds.shows.ne_number member (by simp [member']) other)

theorem notMem_of_pinned (holds : d.Holds disk kept pinned view) (member : b ∈ pinned) : b ∉ kept := by
  intro member'
  have nodup := (List.Nodup.of_map _ holds.shows.apart)
  exact (List.nodup_append.mp nodup).2.2 b member' b member rfl

theorem store (holds : d.Holds disk kept pinned view) (member : b ∈ pinned) (bytes : Bytes) :
    (d.exec disk b (.store bytes)).Holds disk kept pinned
      (Function.update view (d.number b) bytes) :=
  ⟨holds.shows.store (by simp [member]) bytes, fun b' member' =>
    holds.others _ (by simp [member]) b' member' (by
      rintro rfl
      exact holds.notMem_of_pinned member member')⟩

theorem markDirty (holds : d.Holds disk kept pinned view) (member : b ∈ pinned) :
    (d.exec disk b .markDirty).Holds disk kept pinned view :=
  ⟨holds.shows.markDirty (by simp [member]), fun b' member' =>
    holds.others _ (by simp [member]) b' member' (by
      rintro rfl
      exact holds.notMem_of_pinned member member')⟩

/-- A block that is going to be changed. -/
theorem pin (holds : d.Holds disk (b :: kept) pinned view) : d.Holds disk kept (b :: pinned) view :=
  ⟨holds.shows.perm List.perm_middle.symm, fun b' member => holds.kept b' (by simp [member])⟩

/-- A block of which no change can be lost. -/
theorem settle (holds : d.Holds disk kept (b :: pinned) view) (is : d.Kept disk b) :
    d.Holds disk (b :: kept) pinned view :=
  ⟨holds.shows.perm List.perm_middle, fun b' member => by
    rcases List.mem_cons.mp member with rfl | member
    · exact is
    · exact holds.kept b' member⟩

/-- Changing a block that is marked already. -/
theorem storeDirty (holds : d.Holds disk (b :: kept) pinned view) (dirty : (d.blocks b).dirty = true)
    (bytes : Bytes) : (d.exec disk b (.store bytes)).Holds disk (b :: kept) pinned
      (Function.update view (d.number b) bytes) :=
  (holds.pin.store (by simp) bytes).settle fun _ => .inl ((dirty_store bytes b).trans dirty)

/-- A changed block is marked. -/
theorem unpin (holds : d.Holds disk kept (b :: pinned) view) :
    (d.exec disk b .markDirty).Holds disk (b :: kept) pinned view := by
  have marked := holds.markDirty (b := b) (by simp)
  refine ⟨marked.shows.perm List.perm_middle, fun b' member => ?_⟩
  rcases List.mem_cons.mp member with rfl | member
  · exact kept_markDirty
  · exact marked.kept b' member

theorem unfix (holds : d.Holds disk (b :: kept) pinned view) :
    (d.exec disk b .unfix).Holds disk kept pinned view := by
  have nodup := List.nodup_cons.mp (List.Nodup.of_map _ holds.shows.apart)
  refine ⟨Shows.unfix holds.shows (holds.kept b (by simp)), fun b' member => ?_⟩
  exact holds.others _ (by simp) b' (by simp [member]) (by
    rintro rfl
    exact nodup.1 (by simp [member]))

theorem forget (holds : d.Holds disk kept (b :: pinned) view) : ∃ bytes,
    ((d.exec disk b .clearDirty).exec disk b .unfix).Holds disk kept pinned
      (Function.update view (d.number b) bytes) := by
  obtain ⟨bytes, shows⟩ := Shows.forget (holds.shows.perm List.perm_middle)
  refine ⟨bytes, shows, fun b' member => ?_⟩
  have other : b' ≠ b := by
    rintro rfl
    exact holds.notMem_of_pinned (by simp) member
  have apart : d.number b' ≠ d.number b :=
    holds.shows.ne_number (by simp) (by simp [member]) other
  exact ((holds.kept b' member).exec _ other apart).exec _ other (by simpa using apart)

/-- Releasing a block that was not changed. -/
theorem release (holds : d.Holds disk kept pinned view) (free : b ∉ kept ++ pinned) :
    (d.exec disk b .unfix).Holds disk kept pinned view := by
  have same : (d.exec disk b .unfix).contents = d.contents := by
    simp only [exec, Device.sync, setBlock_contents]
    split
    · rename_i written
      rw [holds.shows.clean written.1 b free] at written
      exact absurd written.2 Bool.false_ne_true
    · rfl
  refine ⟨holds.shows.release free, fun b' member copies => ?_⟩
  have other : b' ≠ b := by
    rintro rfl
    exact free (by simp [member])
  rw [number_exec, blocks_exec_of_ne _ other, same]
  exact holds.kept b' member copies

end Holds

end MPStuBS.Device
