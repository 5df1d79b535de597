import MPStuBS.ReleaseCounts
import MPStuBS.ZoneAllocation
import Mathlib.Algebra.BigOperators.Intervals

/-! `free_branches`: each zone of a subtree that is cut off is released once, unless a block on the
way to it cannot be fixed. -/
namespace MPStuBS.Minix

open Prog FsM Device HeapTree
open Finset (range Ico)

variable {disk : Disk Errno} {allowed : FsFault → Prop} {ptr : Nat} {g : Geometry}
  {maps kept pinned : List Nat}

/-- A tree that is cut off: its zones can be freed, and its blocks are not held. -/
structure Detached (g : Geometry) (view : Nat → Bytes) (numbers : List Nat) (nodes inner : Multiset Nat) :
    Prop where
  nodup : nodes.Nodup
  zone : ∀ z ∈ nodes, g.IsZone z
  free : ∀ n ∈ inner, n ∉ numbers

/-- What is freed of the zones that are cut off: all of them on a device that never fails. -/
structure Part (disk : Disk Errno) (freed all : Multiset Nat) : Prop where
  le : freed ≤ all
  whole : Reliable disk → freed = all

theorem Part.refl (freed : Multiset Nat) : Part disk freed freed := ⟨le_refl _, fun _ => rfl⟩

theorem Part.add {freed freed' all all' : Multiset Nat} (fst : Part disk freed all) (snd : Part disk freed' all') :
    Part disk (freed + freed') (all + all') :=
  ⟨add_le_add fst.le snd.le, fun reliable => by rw [fst.whole reliable, snd.whole reliable]⟩

theorem Part.failed {clock number : Nat} {e : Errno} (failure : disk.fails clock number = some e) (all : Multiset Nat) :
    Part disk 0 all := by
  refine ⟨Multiset.zero_le _, fun reliable => ?_⟩
  rw [reliable] at failure
  cases failure

/-- What is freed below an entry. -/
structure Sheds (disk : Disk Errno) (g : Geometry) (ptr : Nat) (w w' : World Fs) (kept pinned : List Nat)
    (view view' : Nat → Bytes) (freed touched : Multiset Nat) : Prop where
  edits : Edits disk ptr w w' kept pinned view' (w.state.inodes ptr).data
  frees : g.Frees view view' freed
  touches : g.Touches view view' touched

/-- `free_branches` frees what is below an entry of a depth, with one release for each zone. -/
def FreesBranch (disk : Disk Errno) (allowed : FsFault → Prop) (g : Geometry) (maps : List Nat) (ptr depth : Nat) :
    Prop :=
  ∀ {w : World Fs} {view : Nat → Bytes} {kept pinned : List Nat} {nr : Nat}, w.state.geometry = g →
    w.state.zoneMaps = maps → (w.state.inodes ptr).deleted = false → Stored disk w kept pinned view → nr ≠ 0 →
    Detached g view ((kept ++ pinned).map w.device.number) (nodes g.indirCount (entry view) depth nr)
      (inner g.indirCount (entry view) depth nr) →
    Spends (releases maps) disk allowed (freeBranch ptr depth nr) (fun _ n w' => ∃ freed view', n = freed.card ∧
      Part disk freed (nodes g.indirCount (entry view) depth nr) ∧
        Sheds disk g ptr w w' kept pinned view view' freed (inner g.indirCount (entry view) depth nr)) w

theorem Edits.zoneMaps {w w' : World Fs} {view' : Nat → Bytes} {data' : Nat → Nat}
    (edits : Edits disk ptr w w' kept pinned view' data') : w'.state.zoneMaps = w.state.zoneMaps := by
  obtain ⟨dirty, state⟩ := edits.state
  rw [state]
  rfl

theorem Edits.numbers {w w' : World Fs} {view view' : Nat → Bytes} {data' : Nat → Nat}
    {kept' pinned' : List Nat} (stored : Stored disk w kept pinned view)
    (edits : Edits disk ptr w w' kept' pinned' view' data') :
    (kept ++ pinned).map w'.device.number = (kept ++ pinned).map w.device.number :=
  List.map_congr_left fun b member => edits.follows.number b (stored.early member)

/-- What is below the entries of a block from an offset on. -/
def tail (g : Geometry) (view : Nat → Bytes) (leaf : Nat → Multiset Nat) (depth K offset : Nat) :
    Multiset Nat :=
  ∑ j ∈ Ico offset g.indirCount, collect g.indirCount (entry view) leaf depth (entry view K j)

abbrev tailNodes (g : Geometry) (view : Nat → Bytes) (depth K offset : Nat) : Multiset Nat :=
  tail g view (fun n => {n}) depth K offset

abbrev tailInner (g : Geometry) (view : Nat → Bytes) (depth K offset : Nat) : Multiset Nat :=
  tail g view (fun _ => 0) depth K offset

section Tails

variable {view view' : Nat → Bytes} {leaf : Nat → Multiset Nat} {depth K offset : Nat}

theorem tail_succ (bound : offset < g.indirCount) : tail g view leaf depth K offset =
    collect g.indirCount (entry view) leaf depth (entry view K offset) +
      tail g view leaf depth K (offset + 1) :=
  Finset.sum_eq_sum_Ico_succ_bot bound _

theorem tail_end : tail g view leaf depth K g.indirCount = 0 := by simp [tail]

theorem tail_congr (same : ∀ j, offset ≤ j → j < g.indirCount →
    collect g.indirCount (entry view') leaf depth (entry view' K j) =
      collect g.indirCount (entry view) leaf depth (entry view K j)) :
    tail g view' leaf depth K offset = tail g view leaf depth K offset :=
  Finset.sum_congr rfl fun j inRange =>
    same j (Finset.mem_Ico.mp inRange).1 (Finset.mem_Ico.mp inRange).2

theorem collect_le_tail {j : Nat} (low : offset ≤ j) (high : j < g.indirCount) :
    collect g.indirCount (entry view) leaf depth (entry view K j) ≤ tail g view leaf depth K offset :=
  Finset.single_le_sum (f := fun j => collect g.indirCount (entry view) leaf depth (entry view K j))
    (fun _ _ => Multiset.zero_le _) (Finset.mem_Ico.mpr ⟨low, high⟩)

theorem Detached.left {numbers : List Nat} {nodes inner nodes' inner' : Multiset Nat}
    (detached : Detached g view numbers (nodes + nodes') (inner + inner')) :
    Detached g view numbers nodes inner :=
  ⟨(Multiset.nodup_add.mp detached.nodup).1, fun z member => detached.zone z (by simp [member]),
    fun n member => detached.free n (by simp [member])⟩

theorem Detached.right {numbers : List Nat} {nodes inner nodes' inner' : Multiset Nat}
    (detached : Detached g view numbers (nodes + nodes') (inner + inner')) :
    Detached g view numbers nodes' inner' :=
  ⟨(Multiset.nodup_add.mp detached.nodup).2.1, fun z member => detached.zone z (by simp [member]),
    fun n member => detached.free n (by simp [member])⟩

/-- A block that is not in the trees below its entries is in none of them. -/
theorem notMem_inner {j : Nat} (absent : K ∉ tailNodes g view depth K offset) (low : offset ≤ j) (high : j < g.indirCount) :
    K ∉ inner g.indirCount (entry view) depth (entry view K j) := fun member =>
  absent (Multiset.mem_of_le (collect_le_tail low high) (Multiset.mem_of_le inner_le_nodes member))

/-- The trees below the entries do not change if one of the entries is cleared. -/
theorem collect_cleared {j : Nat} (absent : K ∉ tailNodes g view depth K offset) (low : offset ≤ j) (high : j < g.indirCount) :
    collect g.indirCount (entry (Function.update view K ((view K).setU32 (4 * offset) 0))) leaf depth (entry view K j) =
      collect g.indirCount (entry view) leaf depth (entry view K j) := by
  rw [entry_update (by omega)]
  exact collect_set_of_notMem offset (notMem_inner absent low high)

/-- The trees below the entries behind one that is cleared are the same when the tree below that one is freed. -/
theorem tail_freed {numbers : List Nat} {z : Nat} (layout : g.Layout) (zone : g.IsZone K)
    (absent : K ∉ tailNodes g view depth K offset) (bound : offset < g.indirCount) (isEntry : z = entry view K offset)
    (detached : Detached g view numbers (nodes g.indirCount (entry view) depth z + tailNodes g view depth K (offset + 1))
      (inner g.indirCount (entry view) depth z + tailInner g view depth K (offset + 1)))
    (touches : g.Touches (Function.update view K ((view K).setU32 (4 * offset) 0)) view'
      (inner g.indirCount (entry view) depth z)) :
    tail g view' leaf depth K (offset + 1) = tail g view leaf depth K (offset + 1) := by
  have kept : view' K = (view K).setU32 (4 * offset) 0 := by
    rw [touches.rest K (zone.offMap layout) (isEntry ▸ notMem_inner absent (Nat.le_refl _) bound), Function.update_self]
  have apart := (Multiset.nodup_add.mp detached.nodup).2.2
  refine tail_congr fun j low high => ?_
  have key : entry view' K j = entry view K j := by
    have slot : entry (Function.update view K ((view K).setU32 (4 * offset) 0)) K j = entry view K j := by
      rw [entry_update (by omega)]
      exact set_of_ne_slot _ _ _ (by omega)
    rw [← slot]
    unfold entry
    rw [kept, Function.update_self]
  rw [key, ← collect_cleared absent (by omega) high]
  refine collect_congr fun x member k _ => ?_
  have inTree : x ∈ inner g.indirCount (entry view) depth (entry view K j) := by
    rw [HeapTree.inner, ← collect_cleared absent (by omega) high]
    exact member
  have inTail : x ∈ tailNodes g view depth K (offset + 1) :=
    Multiset.mem_of_le (collect_le_tail low high) (Multiset.mem_of_le inner_le_nodes inTree)
  unfold entry
  rw [touches.rest x ((detached.right.zone x inTail).offMap layout) fun inZ =>
    Multiset.disjoint_left.mp apart (Multiset.mem_of_le inner_le_nodes inZ) inTail]

end Tails

/-- Clearing the entries of a block that is cut off frees what is below them. -/
theorem clearEntries_detached (layout : g.Layout) {depth : Nat}
    (frees : FreesBranch disk allowed g maps ptr depth) {h K : Nat} (zone : g.IsZone K) (n : Nat) :
    ∀ {offset : Nat} {w : World Fs} {view : Nat → Bytes}, offset + n = g.indirCount →
      w.state.geometry = g → w.state.zoneMaps = maps → (w.state.inodes ptr).deleted = false → Stored disk w kept (h :: pinned) view →
      w.device.number h = K → K ∉ tailNodes g view depth K offset →
      Detached g view ((kept ++ h :: pinned).map w.device.number) (tailNodes g view depth K offset)
        (tailInner g view depth K offset) →
      Spends (releases maps) disk allowed (clearEntries ptr (.block h) (freeBranch ptr depth) n offset)
        (fun _ n w' => ∃ freed view', n = freed.card ∧ Part disk freed (tailNodes g view depth K offset) ∧
          Sheds disk g ptr w w' kept (h :: pinned) view view' freed (K ::ₘ tailInner g view depth K offset)) w := by
  induction n with
  | zero =>
    intro offset w view whole here same live stored number absent detached
    obtain rfl : offset = g.indirCount := whole
    rw [tailNodes, tail_end]
    exact spends_pure.mpr ⟨0, view, rfl, .refl _, .refl stored, .refl _ _, .refl _ _ _⟩
  | succ n ih =>
    intro offset w view whole here same live stored number absent detached
    subst here same
    have bound : offset < w.state.geometry.indirCount := by omega
    refine spends_first (free_readEntry _ _ _) ((readEntry_block stored (by simp) bound).mpr ?_)
    rw [number]
    simp only [tailNodes, tailInner, tail_succ bound] at absent detached ⊢
    set z := entry view K offset with zDef
    split
    · rename_i zero
      simp only [zero, collect_zero, zero_add] at absent detached ⊢
      exact ih (by omega) rfl rfl live stored number absent detached
    rename_i nonzero
    rw [Multiset.mem_add, not_or] at absent
    have offMap := zone.offMap layout
    have off : Area.Off w.state.zoneMaps (.block h) := stored.notMem_zoneMaps (by simp)
    refine spends_first (free_writeEntry _ off _ _) ?_
    simp only [meets_bind, writeEntry, meets_get]
    rw [meets_load (stored.load (by simp)), number, if_pos (show offset < w.state.indirCount from bound),
      meets_store]
    set bytes := (view K).setU32 (4 * offset) 0 with bytesDef
    have works1 := works_store stored (List.mem_cons_self ..) bytes
    rw [number] at works1
    have here : K ∉ tailNodes w.state.geometry view depth K offset := by
      rw [tailNodes, tail_succ bound, Multiset.mem_add, not_or]
      exact absent
    have same1 : ∀ leaf : Nat → Multiset Nat,
        collect w.state.geometry.indirCount (entry (Function.update view K bytes)) leaf depth z
          = collect w.state.geometry.indirCount (entry view) leaf depth z := fun leaf =>
      collect_cleared here (Nat.le_refl _) bound
    have numbers1 := works1.numbers stored
    have left : Detached w.state.geometry (Function.update view K bytes)
        ((kept ++ h :: pinned).map (w.device.exec disk h (.store bytes)).number)
        (nodes w.state.geometry.indirCount (entry (Function.update view K bytes)) depth z)
        (inner w.state.geometry.indirCount (entry (Function.update view K bytes)) depth z) := by
      have detached := detached.left
      rw [nodes, HeapTree.inner, same1, same1]
      exact ⟨detached.nodup, detached.zone, numbers1.symm ▸ detached.free⟩
    refine spends_bind.mpr ((frees (w := ⟨w.state, w.device.exec disk h (.store bytes)⟩) rfl rfl live works1.stored
      nonzero left).mono ?_)
    rintro _ n2 w2 ⟨freed2, view2, count2, part2, sheds2⟩
    rw [nodes, same1] at part2
    rw [HeapTree.inner, same1] at sheds2
    have tails : ∀ leaf, tail w.state.geometry view2 leaf depth K (offset + 1) =
        tail w.state.geometry view leaf depth K (offset + 1) := fun leaf =>
      tail_freed layout zone here bound zDef detached sheds2.touches
    have edits := works1.edits.trans sheds2.edits
    have numbers2 := edits.numbers stored
    refine (ih (by omega) edits.geometry edits.zoneMaps (edits.deleted.trans live) edits.stored
      ((edits.follows.number h (stored.early (by simp))).trans number) ?_ ?_).mono ?_
    · rw [tailNodes, tails]
      exact absent.2
    · rw [tailNodes, tailInner, tails, tails]
      exact ⟨detached.right.nodup, detached.right.zone, numbers2.symm ▸ detached.right.free⟩
    · rintro _ n3 w3 ⟨freed3, view3, count3, part3, sheds3⟩
      rw [tailNodes, tails] at part3
      rw [tailInner, tails] at sheds3
      have frees1 : w.state.geometry.Frees view (Function.update view K bytes) 0 :=
        Geometry.frees_update bytes offMap
      have touches1 : w.state.geometry.Touches view (Function.update view K bytes) {K} :=
        Geometry.touches_update K bytes
      have edits3 := edits.trans sheds3.edits
      rw [edits.data] at edits3
      refine ⟨freed2 + freed3, view3, ?_, part2.add part3, edits3, ?_, ?_⟩
      · rw [Multiset.card_add, count2, count3]
      · have frees := (frees1.trans sheds2.frees).trans sheds3.frees
        rwa [zero_add] at frees
      · refine ((touches1.trans sheds2.touches).trans sheds3.touches).mono fun x member => ?_
        simp only [Multiset.mem_add, Multiset.mem_singleton, Multiset.mem_cons] at member ⊢
        tauto

/-- `free_branches` frees what is below an entry. -/
theorem freeBranch_frees (layout : g.Layout) (depth : Nat) :
    FreesBranch disk allowed g maps ptr depth := by
  induction depth with
  | zero =>
    intro w view kept pinned nr here same live stored nonzero detached
    subst here same
    have single : nodes w.state.geometry.indirCount (entry view) 0 nr = {nr} := if_neg nonzero
    have nothing : inner w.state.geometry.indirCount (entry view) 0 nr = 0 := if_neg nonzero
    rw [single] at detached ⊢
    rw [nothing]
    refine (freeBlock_releases layout stored (detached.zone nr (by simp))).mono ?_
    rintro _ n w' ⟨count, view', works, frees, touches⟩
    exact ⟨{nr}, view', count, .refl _, works.edits, frees, touches⟩
  | succ depth ih =>
    intro w view kept pinned nr here same live stored nonzero detached
    subst here same
    have whole : ∀ leaf, collect w.state.geometry.indirCount (entry view) leaf (depth + 1) nr =
        nr ::ₘ tail w.state.geometry view leaf depth nr 0 := by
      intro leaf
      rw [collect_succ nonzero, Finset.range_eq_Ico]
      rfl
    rw [nodes, HeapTree.inner, whole, whole] at detached ⊢
    have zone := detached.zone nr (by simp)
    have apart := Multiset.nodup_cons.mp detached.nodup
    refine spends_first free_get (meets_get.mpr (spends_first free_fix ?_))
    refine meets_fix (fun _ => ?_) (fun e failure => ?_)
    swap
    · exact spends_pure.mpr ⟨0, view, rfl, .failed failure _, (works_tick stored).edits, .refl _ _, .refl _ _ _⟩
    have own := works_fix stored (Nat.le_trans layout.table zone.first) (detached.free nr (by simp))
    have numbers1 := own.numbers stored
    have below : Detached w.state.geometry view
        ((kept ++ w.device.next :: pinned).map (w.device.hold nr).tick.number)
        (tailNodes w.state.geometry view depth nr 0) (tailInner w.state.geometry view depth nr 0) := by
      refine ⟨apart.2, fun z member => detached.zone z (by simp [member]), fun n member held => ?_⟩
      rcases List.mem_cons.mp ((List.perm_middle.map _).mem_iff.mp held) with same | old
      · rw [number_hold] at same
        exact apart.1 (Multiset.mem_of_le (Finset.sum_le_sum fun j _ => inner_le_nodes) (same ▸ member))
      · exact detached.free n (by simp [member]) (numbers1 ▸ old)
    refine spends_bind.mpr ((clearEntries_detached (w := ⟨w.state, (w.device.hold nr).tick⟩) layout ih zone _ (by simp)
      rfl rfl live own.stored.pin (number_hold nr) apart.1 below).mono ?_)
    rintro _ n2 w2 ⟨freed2, view2, count2, part2, sheds2⟩
    have edits2 := own.edits.trans sheds2.edits
    obtain ⟨bytes, forgot⟩ := works_forget sheds2.edits.stored
    have number2 : w2.device.number w.device.next = nr :=
      (sheds2.edits.follows.number _ (own.stored.early (by simp))).trans (number_hold nr)
    rw [number2] at forgot
    have edits3 := edits2.then forgot
    have same3 := edits2.geometry
    refine spends_first free_forget (meets_forget.mpr ?_)
    rw [← edits2.zoneMaps]
    refine spends_bind.mpr ((freeBlock_releases (w := ⟨w2.state, _⟩) (by rw [same3]; exact layout) forgot.stored
      (by rw [same3]; exact zone)).mono ?_)
    rintro _ n4 w4 ⟨count4, view4, works4, frees4, touches4⟩
    have edits4 := edits3.then works4
    refine spends_last free_setInode ((meets_setInode (edits4.deleted.trans live)).mpr ?_)
    have same4 : (⟨w2.state, (w2.device.exec disk w.device.next .clearDirty).exec disk w.device.next
        .unfix⟩ : World Fs).state.geometry = w.state.geometry := same3
    rw [same4] at frees4 touches4
    have offMap := zone.offMap layout
    have frees3 : w.state.geometry.Frees view2 (Function.update view2 nr bytes) 0 :=
      Geometry.frees_update bytes offMap
    have touches3 : w.state.geometry.Touches view2 (Function.update view2 nr bytes) {nr} :=
      Geometry.touches_update nr bytes
    refine ⟨nr ::ₘ freed2, view4, ?_, ?_, edits4.setDirty, ?_, ?_⟩
    · rw [count2, count4, Multiset.card_cons]
    · rw [← Multiset.singleton_add, ← Multiset.singleton_add nr]
      exact (Part.refl {nr}).add part2
    · have frees := (sheds2.frees.trans frees3).trans frees4
      rw [add_zero, add_comm, Multiset.singleton_add] at frees
      exact frees
    · refine ((sheds2.touches.trans touches3).trans touches4).mono fun x member => ?_
      simp only [Multiset.mem_add, Multiset.mem_singleton, Multiset.mem_cons, Multiset.notMem_zero] at member ⊢
      tauto

end MPStuBS.Minix
