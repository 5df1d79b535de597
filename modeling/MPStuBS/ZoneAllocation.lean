import MPStuBS.TreeEdits

/-! Allocation in a block tree: `alloc_branch`, `splice_branch` and `get_block`. -/
namespace MPStuBS.Minix

open Prog FsM Device HeapTree
open Finset (range)

variable {disk : Disk Errno} {allowed : FsFault → Prop} {ptr : Nat} {w : World Fs}
  {kept pinned : List Nat} {view : Nat → Bytes}

/-- Every `fix` succeeds. -/
def Reliable (disk : Disk Errno) : Prop := ∀ clock number, disk.fails clock number = none

section Blocks

variable {m offset nr : Nat}

/-- The entries of a block that has been cleared and then got one entry. -/
theorem entry_cleared {k size : Nat} (bytes : Bytes) (room : 4 * k + 4 ≤ size) (small : nr < 4294967296) :
    ((bytes.fill 0 size 0).setU32 (4 * offset) nr).u32 (4 * k) = if k = offset then nr else 0 := by
  split
  · rename_i here
    rw [here, Bytes.u32_setU32, Nat.mod_eq_of_lt small]
  · rename_i other
    rw [Bytes.u32_setU32_of_apart (by omega), Bytes.u32_fill_zero (Nat.zero_le _) (by omega)]

/-- The nodes of a block with one entry. -/
theorem nodes_single {e : Nat → Nat → Nat} {depth n : Nat} (nonzero : n ≠ 0) (inside : offset < m)
    (others : ∀ k < m, e n k = if k = offset then nr else 0) :
    nodes m e (depth + 1) n = n ::ₘ nodes m e depth nr := by
  rw [nodes, collect_succ nonzero, Finset.sum_eq_single_of_mem offset (Finset.mem_range.mpr inside)]
  · rw [others offset inside, if_pos rfl]
  · intro k inRange apart
    rw [others k (Finset.mem_range.mp inRange), if_neg apart, collect_zero]

end Blocks

/-- The key of the last entry. -/
def lastKey (key : Nat) : List Indirect → Nat
  | [] => key
  | p :: more => lastKey p.key more

theorem lastKey_mem (more : List Indirect) : ∀ key,
    lastKey key more ∈ key ::ₘ Multiset.ofList (more.map Indirect.key) := by
  induction more with
  | nil => exact fun key => by simp [lastKey]
  | cons p more ih =>
    intro key
    exact Multiset.mem_cons_of_mem (ih p.key)

theorem head_reverse (more : List Indirect) : ∀ (p : Indirect) (above : List Indirect),
    ∃ q chain, more.reverse ++ p :: above = q :: chain ∧ q.key = lastKey p.key more := by
  induction more with
  | nil => exact fun p above => ⟨p, above, rfl, rfl⟩
  | cons q more ih =>
    intro p above
    obtain ⟨last, chain, whole, key⟩ := ih q (p :: above)
    exact ⟨last, chain, by simpa using whole, key⟩

/-- A tree of new zones has been made below one of them, with one path in it. -/
structure Grafts (g : Geometry) (view view' : Nat → Bytes) (parent : Nat) (rest : List Nat) (last : Nat)
    (taken : Multiset Nat) : Prop where
  nodes : nodes g.indirCount (entry view') rest.length parent = parent ::ₘ taken
  last : follow (entry view') parent rest = last
  others : ∀ path, path.length ≤ rest.length → (∀ a ∈ path, a < g.indirCount) → ¬ path <+: rest →
    follow (entry view') parent path = 0

/-- What `alloc_branch` has made below a new zone, completely or not. -/
structure Allocates (g : Geometry) (d : Device) (view view' : Nat → Bytes) (parent : Nat)
    (rest : List Nat) (more : List Indirect) (complete : Bool) (taken : Multiset Nat) : Prop where
  takes : g.Takes view view' taken
  touches : g.Touches view view' (parent ::ₘ taken)
  keys : taken = Multiset.ofList (more.map Indirect.key)
  numbers : ∀ h ∈ handles more, d.number h ∈ parent ::ₘ taken
  draws : FirstFit.Draws g.validBits g.bitCount (g.usedBits view) rest.length (more.map fun p => g.bitOf p.key)
    (g.usedBits view') complete
  grafts : complete = true → Grafts g view view' parent rest (lastKey parent more) taken

section Clearing

variable {s : Fs} {d : Device} {h : Nat}

/-- A block that is cleared, marked, and changed once more. -/
theorem works_cleared (stored : Stored disk ⟨s, d⟩ (h :: kept) pinned view) (bytes bytes' : Bytes) :
    Works disk ⟨s, d⟩
      ⟨s, ((d.exec disk h (.store bytes)).exec disk h .markDirty).exec disk h (.store bytes')⟩
      (h :: kept) pinned (Function.update view (d.number h) bytes') := by
  have first := works_store stored.pin (List.mem_cons_self ..) bytes
  have second := works_markDirty first.stored
  have dirty : (((d.exec disk h (.store bytes)).exec disk h .markDirty).blocks h).dirty = true := by
    simp [exec]
  have third := second.stored.holds.storeDirty dirty bytes'
  simp only [number_exec, Function.update_idem] at third
  exact (first.trans second).trans (works_device second.stored (follows_exec (.store bytes')) third)

/-- A block that is fixed, cleared and given one entry. -/
def entered (disk : Disk Errno) (d : Device) (n : Nat) (bytes bytes' : Bytes) : Device :=
  (((d.hold n).tick.exec disk d.next (.store bytes)).exec disk d.next .markDirty).exec disk d.next (.store bytes')

theorem number_entered {n : Nat} (bytes bytes' : Bytes) : (entered disk d n bytes bytes').number d.next = n := by
  simp only [entered, number_exec]
  exact number_hold n

theorem load_entered {n : Nat} (stored : Stored disk ⟨s, d⟩ kept pinned view) (table : s.geometry.inodeStart ≤ n)
    (free : n ∉ (kept ++ pinned).map d.number) (bytes : Bytes) :
    (((d.hold n).tick.exec disk d.next (.store bytes)).exec disk d.next .markDirty).load disk d.next = some bytes := by
  have own := works_fix stored table free
  have first := works_store own.stored.pin (List.mem_cons_self ..) bytes
  have second := works_markDirty first.stored
  rw [second.stored.load (by simp), number_exec, number_exec, Function.update_self]

theorem works_entered {n : Nat} (stored : Stored disk ⟨s, d⟩ kept pinned view) (table : s.geometry.inodeStart ≤ n)
    (free : n ∉ (kept ++ pinned).map d.number) (bytes bytes' : Bytes) :
    Works disk ⟨s, d⟩ ⟨s, entered disk d n bytes bytes'⟩ (d.next :: kept) pinned (Function.update view n bytes') := by
  have own := works_fix stored table free
  have cleared := works_cleared own.stored bytes bytes'
  rw [show (d.hold n).tick.number d.next = n from number_hold n] at cleared
  exact own.trans cleared

end Clearing

/-- A zone that was just taken gets the zone of the next one as its only entry, and below that the rest is made. -/
theorem Grafts.cons {view view1 view' : Nat → Bytes} {parent nr offset last : Nat} {rest : List Nat} {taken : Multiset Nat}
    (nonzero : parent ≠ 0) (inside : offset < g.indirCount)
    (entries : ∀ k < g.indirCount, entry view' parent k = if k = offset then nr else 0)
    (grafts : Grafts g view1 view' nr rest last taken) :
    Grafts g view view' parent (offset :: rest) last (nr ::ₘ taken) := by
  refine ⟨?_, ?_, ?_⟩
  · rw [List.length_cons, nodes_single nonzero inside entries, grafts.nodes]
  · simp only [follow, if_neg nonzero]
    rw [entries offset inside, if_pos rfl]
    exact grafts.last
  · rintro (_ | ⟨a, path⟩) lengths insidePath other
    · exact absurd List.nil_prefix other
    simp only [follow, if_neg nonzero]
    rw [entries a (insidePath a (by simp))]
    split
    · rename_i here
      subst here
      exact grafts.others path (by simpa using lengths) (fun a inPath => insidePath a (by simp [inPath]))
        fun below => other (List.cons_prefix_cons.mpr ⟨rfl, below⟩)
    · exact follow_zero _

/-- The zone `nr` has been taken, it was entered in its parent, and then the rest was made below it. -/
theorem Allocates.cons {d : Device} {view view1 view2 : Nat → Bytes} {bytes : Bytes} {parent nr offset h : Nat}
    {rest : List Nat} {more : List Indirect} {complete : Bool} {taken : Multiset Nat} (layout : g.Layout)
    (zone : g.IsZone parent) (marked : g.marked view parent = true) (inside : offset < g.indirCount) (nonzero : nr ≠ 0)
    (takes1 : g.Takes view view1 {nr}) (touches1 : g.Touches view view1 0) (draws1 : g.DrawsZone view view1 nr)
    (entries : ∀ k < g.indirCount, bytes.u32 (4 * k) = if k = offset then nr else 0) (number : d.number h = parent)
    (alloc : Allocates g d (Function.update view1 parent bytes) view2 nr rest more complete taken) :
    Allocates g d view view2 parent (offset :: rest) (⟨.block h, offset, nr⟩ :: more) complete (nr ::ₘ taken) := by
  have offMap := zone.offMap layout
  have marks : ∀ z, g.IsZone z → g.marked (Function.update view1 parent bytes) z = g.marked view1 z := fun z zone =>
    Geometry.marked_update_of_offMap _ zone offMap
  have takes : g.Takes view view2 (nr ::ₘ taken) := by
    rw [← Multiset.singleton_add]
    exact takes1.trans (alloc.takes.congr marks)
  have touches := (touches1.trans (Geometry.touches_update parent bytes)).trans alloc.touches
  have bits : g.usedBits (Function.update view1 parent bytes) = g.usedBits view1 := Geometry.usedBits_congr fun n inMap =>
    Function.update_of_ne (by rintro rfl; exact offMap inMap) _ _
  refine ⟨takes, touches.mono fun n member => ?_, ?_, fun h' member => ?_, draws1.next nonzero (bits ▸ alloc.draws),
    fun whole => ?_⟩
  · simp only [zero_add, Multiset.mem_add, Multiset.mem_singleton, Multiset.mem_cons] at member ⊢
    tauto
  · rw [alloc.keys]
    rfl
  · rcases List.mem_cons.mp member with rfl | old
    · simp [number]
    · exact Multiset.mem_cons_of_mem (alloc.numbers h' old)
  · refine (alloc.grafts whole).cons (zone.ne_zero layout) inside fun k inside => ?_
    have same : view2 parent = bytes := by
      rw [alloc.touches.rest parent offMap (takes.notMem marked), Function.update_self]
    exact (congrArg (fun bytes => Bytes.u32 bytes (4 * k)) same).trans (entries k inside)

theorem allocRest_allocates {g : Geometry} (layout : g.Layout)
    (lenient : Reliable disk ∨ allowed .nullPointer) (rest : List Nat) :
    ∀ {parent : Nat} {kept : List Nat} {view : Nat → Bytes} {w : World Fs}, w.state.geometry = g →
      Stored disk w kept pinned view → g.IsZone parent → g.marked view parent = true →
      parent ∉ (kept ++ pinned).map w.device.number →
      (∀ n ∈ (kept ++ pinned).map w.device.number, g.IsZone n → g.marked view n = true) →
      (∀ a ∈ rest, a < g.indirCount) →
      Meets disk allowed (allocRest ptr parent rest) (fun r w' => ∃ view' taken,
        Works disk w w' (handles r.1 ++ kept) pinned view' ∧
        Allocates g w'.device view view' parent rest r.1 r.2 taken) w := by
  induction rest with
  | nil =>
    intro parent kept view w here stored zone marked free firm inside
    refine meets_pure.mpr ⟨view, 0, .refl stored, .refl _ _, .refl _ _ _, rfl, by simp, .done _, fun _ => ⟨?_, rfl, ?_⟩⟩
    · simp [collect, zone.ne_zero layout]
    · intro path short _ other
      obtain rfl := List.eq_nil_of_length_eq_zero (Nat.le_zero.mp short)
      exact absurd List.nil_prefix other
  | cons offset rest ih =>
    intro parent kept view w here stored zone marked free firm inside
    subst here
    set g := w.state.geometry with gDef
    have offMap := zone.offMap layout
    simp only [allocRest, meets_bind]
    refine (newBlock_takes layout stored).mono ?_
    rintro nr ⟨s, d⟩ ⟨view1, works1, takes1, touches1, draws1⟩
    obtain rfl : s = w.state := works1.state
    split
    · rename_i zero
      subst zero
      refine meets_pure.mpr ⟨view1, 0, works1, takes1, touches1.mono (by simp), rfl, by simp, draws1.none, ?_⟩
      simp
    rename_i nonzero
    rw [takenBy, if_neg nonzero] at takes1
    obtain ⟨nrZone, nrFree⟩ := takes1.zones nr (by simp)
    have firm1 : ∀ z, g.IsZone z → (g.marked view1 z = true ↔ z = nr ∨ g.marked view z = true) := fun z zone => by
      rw [takes1.marks z zone, Multiset.mem_singleton]
    have numbers1 : (kept ++ pinned).map d.number = (kept ++ pinned).map w.device.number :=
      works1.numbers stored
    simp only [meets_bind, meets_get]
    refine meets_fix (fun _ => ?_) (fun e failure => ?_)
    swap
    · rcases lenient with reliable | lenient
      · rw [reliable] at failure
        cases failure
      · exact lenient
    have table := Nat.le_trans layout.table zone.first
    have own := works_fix works1.stored (n := parent) table (numbers1 ▸ free)
    simp only [meets_bind]
    rw [meets_load (own.stored.load (by simp)), number_hold]
    simp only [meets_store, meets_markDirty, writeEntry, meets_bind, meets_get]
    set bytes := (view1 parent).fill 0 w.state.blocksize 0 with bytesDef
    rw [meets_load (load_entered works1.stored table (numbers1 ▸ free) bytes),
      if_pos (show offset < w.state.indirCount from inside offset (by simp)), meets_store]
    have works2 := works_entered works1.stored table (numbers1 ▸ free) bytes (bytes.setU32 (4 * offset) nr)
    have numbers2 : (d.next :: kept ++ pinned).map (entered disk d parent bytes (bytes.setU32 (4 * offset) nr)).number
        = parent :: (kept ++ pinned).map w.device.number := by
      rw [List.cons_append, List.map_cons, number_entered, works2.numbers works1.stored, numbers1]
    have marked2 : ∀ z, g.IsZone z → (g.marked (Function.update view1 parent (bytes.setU32 (4 * offset) nr)) z = true ↔
        z = nr ∨ g.marked view z = true) := fun z zone =>
      (Geometry.marked_update_of_offMap _ zone offMap).symm ▸ firm1 z zone
    simp only [meets_bind]
    change Meets disk allowed _ _ ⟨w.state, entered disk d parent bytes (bytes.setU32 (4 * offset) nr)⟩
    refine (ih (w := ⟨w.state, entered disk d parent bytes (bytes.setU32 (4 * offset) nr)⟩) rfl works2.stored nrZone
      ((marked2 nr nrZone).mpr (.inl rfl)) ?_ ?_ fun a inRest => inside a (by simp [inRest])).mono ?_
    · rw [numbers2, List.mem_cons, not_or]
      refine ⟨?_, fun member => ?_⟩
      · rintro rfl
        rw [marked] at nrFree
        cases nrFree
      · rw [firm nr member nrZone] at nrFree
        cases nrFree
    · rw [numbers2]
      intro n member zone'
      rw [marked2 n zone']
      rcases List.mem_cons.mp member with rfl | old
      · exact .inr marked
      · exact .inr (firm n old zone')
    · rintro ⟨more, complete⟩ w3 ⟨view3, taken, works3, alloc⟩
      have number3 : w3.device.number d.next = parent :=
        (works3.follows.number d.next (works2.stored.early (by simp))).trans (number_entered _ _)
      have entries : ∀ k < g.indirCount, (bytes.setU32 (4 * offset) nr).u32 (4 * k) = if k = offset then nr else 0 := by
        intro k inside
        have room : 4 * k + 4 ≤ w.state.blocksize := by
          have whole : 4 * g.indirCount = w.state.blocksize := layout.entries.1
          omega
        exact entry_cleared _ room (Nat.lt_of_lt_of_le nrZone.last layout.last)
      exact meets_pure.mpr ⟨view3, nr ::ₘ taken, ((works1.trans works2).trans works3).perm List.perm_middle (.refl _),
        alloc.cons layout zone marked (inside offset (by simp)) nonzero takes1 touches1 draws1 entries number3⟩

/-- Forgetting the blocks of a chain leaves arbitrary contents in them. -/
theorem forgetAll_forgets (chain : List Indirect) : ∀ {w : World Fs} {view : Nat → Bytes},
    Stored disk w (handles chain ++ kept) pinned view →
    Meets disk allowed (forgetAll chain) (fun _ w' => ∃ view', Works disk w w' kept pinned view' ∧
      ∀ n ∉ (handles chain).map w.device.number, view' n = view n) w := by
  induction chain with
  | nil => exact fun {w view} stored => meets_pure.mpr ⟨view, .refl stored, fun _ _ => rfl⟩
  | cons p chain ih =>
    intro w view stored
    obtain ⟨area, offset, key⟩ := p
    simp only [forgetAll, Indirect.forget, meets_bind]
    cases area with
    | inode => exact ih stored
    | block h =>
      have stored : Stored disk w (h :: (handles chain ++ kept)) pinned view := stored
      obtain ⟨bytes, forgot⟩ := works_forget stored.pin
      refine (ih forgot.stored).mono ?_
      rintro _ w' ⟨view', works, same⟩
      refine ⟨view', forgot.trans works, ?_⟩
      intro n absent
      rw [handles_block, List.map_cons, List.mem_cons, not_or] at absent
      rw [same n (by simpa using absent.2), Function.update_of_ne absent.1]

theorem freeKeys_frees {g : Geometry} (layout : g.Layout) (chain : List Indirect) :
    ∀ {w : World Fs} {view : Nat → Bytes}, w.state.geometry = g → Stored disk w kept pinned view →
    (∀ p ∈ chain, g.IsZone p.key) →
    Meets disk allowed (freeKeys chain) (fun _ w' => ∃ view', Works disk w w' kept pinned view' ∧
      g.Frees view view' (Multiset.ofList (chain.map Indirect.key)) ∧ g.Touches view view' 0 ∧
      g.usedBits view' = g.usedBits view \ {k | k ∈ chain.map fun p => g.bitOf p.key}) w := by
  induction chain with
  | nil => exact fun {w view} _ stored _ => meets_pure.mpr ⟨view, .refl stored, .refl _ _, .refl _ _ _, by simp⟩
  | cons p chain ih =>
    intro w view here stored zones
    subst here
    simp only [freeKeys, meets_bind]
    refine (freeBlock_frees layout stored (zones p (by simp))).mono ?_
    rintro _ ⟨s, d⟩ ⟨view1, works1, frees1, touches1, bits1⟩
    obtain rfl : s = w.state := works1.state
    refine (ih (w := ⟨w.state, d⟩) rfl works1.stored fun p' member => zones p' (by simp [member])).mono ?_
    rintro _ w2 ⟨view2, works2, frees2, touches2, bits2⟩
    refine ⟨view2, works1.trans works2, frees1.trans frees2, touches1.trans touches2, ?_⟩
    rw [bits2, bits1, Set.sdiff_sdiff]
    congr 1
    ext k
    simp

/-- What `alloc_branch` returns. A branch that could not be completed has been given back. -/
inductive Sprouts (disk : Disk Errno) (w w' : World Fs) (kept pinned : List Nat) (view : Nat → Bytes)
    (p : Indirect) (rest : List Nat) : Except Errno (List Indirect) → Prop
  | failed {view' : Nat → Bytes} (works : Works disk w w' kept pinned view')
      (marks : ∀ z, w.state.geometry.IsZone z →
        w.state.geometry.marked view' z = w.state.geometry.marked view z)
      (spares : w.state.geometry.Spares view view')
      (undone : w.state.geometry.usedBits view' = w.state.geometry.usedBits view ↔
        w.state.geometry.Serves view (rest.length + 1)) : Sprouts disk w w' kept pinned view p rest (.error .enospc)
  | made {parent : Nat} {more : List Indirect} {view' : Nat → Bytes} {taken : Multiset Nat}
      (works : Works disk w w' (handles more ++ kept) pinned view')
      (takes : w.state.geometry.Takes view view' (parent ::ₘ taken))
      (touches : w.state.geometry.Touches view view' (parent ::ₘ taken))
      (keys : taken = Multiset.ofList (more.map Indirect.key))
      (numbers : ∀ h ∈ handles more, w'.device.number h ∈ parent ::ₘ taken)
      (serves : w.state.geometry.Serves view (rest.length + 1))
      (grafts : Grafts w.state.geometry view view' parent rest (lastKey parent more) taken) :
      Sprouts disk w w' kept pinned view p rest (.ok ({ p with key := parent } :: more))

theorem allocBranch_sprouts {p : Indirect} {rest : List Nat} (layout : w.state.geometry.Layout)
    (lenient : Reliable disk ∨ allowed .nullPointer) (stored : Stored disk w kept pinned view)
    (firm : ∀ n ∈ (kept ++ pinned).map w.device.number, w.state.geometry.IsZone n →
      w.state.geometry.marked view n = true) (inside : ∀ a ∈ rest, a < w.state.indirCount) :
    Meets disk allowed (allocBranch ptr p rest) (fun r w' => Sprouts disk w w' kept pinned view p rest r)
      w := by
  simp only [allocBranch, meets_bind]
  refine (newBlock_takes layout stored).mono ?_
  rintro parent ⟨s, d⟩ ⟨view1, works1, takes1, touches1, draws1⟩
  obtain rfl : s = w.state := works1.state
  split
  · rename_i zero
    subst zero
    have takes0 : w.state.geometry.Takes view view1 0 := takes1
    refine meets_pure.mpr (.failed works1 (fun z zone => ?_) (takes0.spares touches1) (by simpa [Geometry.Serves] using draws1.none.undone_iff))
    rw [Bool.eq_iff_iff, takes0.marks z zone]
    simp
  rename_i nonzero
  rw [takenBy, if_neg nonzero] at takes1
  obtain ⟨zone, free⟩ := takes1.zones parent (by simp)
  have marked1 := takes1.marks
  simp only [Multiset.mem_singleton] at marked1
  simp only [meets_bind]
  refine (allocRest_allocates (w := ⟨w.state, d⟩) layout lenient rest rfl works1.stored zone
    ((marked1 parent zone).mpr (.inl rfl)) ?_ ?_ inside).mono ?_
  · intro member
    rw [works1.numbers stored] at member
    rw [firm parent member zone] at free
    cases free
  · intro n member zone'
    rw [works1.numbers stored] at member
    exact (marked1 n zone').mpr (.inr (firm n member zone'))
  rintro ⟨more, complete⟩ ⟨s, d2⟩ ⟨view2, taken, works2, alloc⟩
  obtain rfl : s = w.state := works2.state
  have works := works1.trans works2
  have takes : w.state.geometry.Takes view view2 (parent ::ₘ taken) := by
    rw [← Multiset.singleton_add]
    exact takes1.trans alloc.takes
  have touches : w.state.geometry.Touches view view2 (parent ::ₘ taken) := by
    have both := touches1.trans alloc.touches
    rwa [zero_add] at both
  split
  · rename_i whole
    obtain rfl : complete = true := whole
    have grafts := alloc.grafts rfl
    exact meets_pure.mpr (.made works takes touches alloc.keys alloc.numbers (draws1.next nonzero alloc.draws).serves
      ⟨grafts.nodes, grafts.last, grafts.others⟩)
  · rename_i incomplete
    obtain rfl : complete = false := by simpa using incomplete
    simp only [meets_bind]
    refine (forgetAll_forgets more works2.stored).mono ?_
    rintro _ ⟨s, d3⟩ ⟨view3, works3, same3⟩
    obtain rfl : s = w.state := works3.state
    have touches3 : ∀ n ∉ parent ::ₘ taken, view3 n = view2 n := fun n absent => same3 n fun member => by
      obtain ⟨h, inChain, number⟩ := List.mem_map.mp member
      exact absent (number ▸ alloc.numbers h inChain)
    have zones : ∀ z ∈ parent ::ₘ taken, w.state.geometry.IsZone z := fun z member => (takes.zones z member).1
    simp only [meets_bind]
    refine (freeKeys_frees (w := ⟨w.state, d3⟩) layout ({ p with key := parent } :: more) rfl works3.stored
      fun q member => zones q.key ?_).mono ?_
    · rw [alloc.keys]
      simpa using List.mem_map_of_mem (f := Indirect.key) member
    rintro _ w4 ⟨view4, works4, frees4, touches4, bits4⟩
    have keys : Multiset.ofList (({ p with key := parent } :: more).map Indirect.key) = parent ::ₘ taken := by
      rw [alloc.keys]
      rfl
    rw [keys] at frees4
    have marks3 : ∀ z, w.state.geometry.IsZone z → w.state.geometry.marked view3 z = w.state.geometry.marked view2 z := fun z zone =>
      Geometry.marked_congr zone fun n inMap => touches3 n fun member => (zones n member).offMap layout inMap
    have marks : ∀ z, w.state.geometry.IsZone z →
        w.state.geometry.marked view4 z = w.state.geometry.marked view z := by
      intro z zone
      rw [Bool.eq_iff_iff, frees4.marks z zone, marks3 z zone, takes.marks z zone]
      constructor
      · rintro ⟨mem | marked, absent⟩
        · exact absurd mem absent
        · exact marked
      · exact fun marked => ⟨.inr marked, takes.notMem marked⟩
    have bits3 : w.state.geometry.usedBits view3 = w.state.geometry.usedBits view2 :=
      Geometry.usedBits_congr fun n inMap => touches3 n fun member => (zones n member).offMap layout inMap
    have undone := (draws1.next nonzero alloc.draws).undone_iff
    rw [← bits3] at undone
    refine meets_pure.mpr (.failed ((works.trans works3).trans works4) marks
      ⟨fun z zone marked => (marks z zone).trans marked, fun n firm => ?_⟩ (bits4 ▸ undone))
    have absent : n ∉ parent ::ₘ taken := fun member =>
      takes.notMem (firm.used (zones n member)) member
    rw [touches4.rest n firm.offMap (by simp), touches3 n absent, touches.rest n firm.offMap absent]

end MPStuBS.Minix
