import MPStuBS.TreeSharing

/-! `truncate`: what it cuts off the block tree of an inode, and that each zone is released once. -/
namespace MPStuBS.Minix

open Prog FsM Device HeapTree

variable {disk : Disk Errno} {allowed : FsFault → Prop} {ptr : Nat} {g : Geometry} {view : Nat → Bytes} {w : World Fs}

section Spines

variable {data : Nat → Nat} {chain : List Indirect} {path : List Nat} {m : Nat} {d : Device}

/-- The blocks of a spine are those on the way to its end. -/
theorem Spine.number (is : Spine m d view data chain path) {h : Nat} (member : h ∈ handles chain) :
    ∃ pre post, path = pre ++ post ∧ pre ≠ [] ∧ post ≠ [] ∧ zoneOf view data pre = d.number h := by
  induction is with
  | root bound => simp at member
  | @step p chain path h' k key above nonzero number inside ih =>
    rcases List.mem_cons.mp member with rfl | old
    · exact ⟨path, [k], rfl, above.nonempty, by simp, number.symm⟩
    · obtain ⟨pre, post, rfl, some, rest, eq⟩ := ih old
      exact ⟨pre, post ++ [k], by simp, some, by simp, eq⟩

/-- A spine ends in the inode or in a block. -/
theorem Spine.ends (is : Spine m d view data chain path) :
    (∃ p, chain = [p]) ∨ ∃ h k key q rest, chain = ⟨.block h, k, key⟩ :: q :: rest := by
  cases is with
  | root bound => exact .inl ⟨_, rfl⟩
  | step above nonzero number inside => exact .inr ⟨_, _, _, _, _, rfl⟩

theorem Spine.on (is : Spine g.indirCount d view data chain path) (isPath : IsPath g.indirCount path) :
    OnSpine g view data ((handles chain).map d.number) path.dropLast := by
  intro n _ inHeld
  obtain ⟨h, member, rfl⟩ := List.mem_map.mp inHeld
  obtain ⟨pre, post, rfl, some, rest, eq⟩ := is.number member
  refine ⟨pre, ?_, isPath.upper some, isPath.level_pos some rest, eq⟩
  rw [List.dropLast_append_of_ne_nil rest]
  exact List.prefix_append _ _

end Spines

/-- Clearing the ends of the blocks on a spine cuts off what comes after it. -/
theorem clearEnds_prunes (layout : g.Layout) {o : Nat} (chain : List Indirect) :
    ∀ {tail : List Nat} {w : World Fs} {view : Nat → Bytes}, IsPath g.indirCount (o :: tail) → 7 ≤ o →
      w.state.geometry = g → (w.state.inodes ptr).deleted = false → Tree g view (w.state.inodes ptr).data →
      Stored disk w [] (handles chain) view →
      Spine g.indirCount w.device view (w.state.inodes ptr).data chain (o :: tail) →
      Spends (releases w.state.zoneMaps) disk allowed (clearEnds ptr (o - 5) chain) (fun _ n w' =>
        Pruned disk g ptr [] [] view w (fun q => Precedes (o :: tail) q ∧ [o] <+: q) n w') w := by
  induction chain with
  | nil =>
    intro tail w view _ _ _ _ _ _ spine
    cases spine
  | cons p chain ih =>
    intro tail w view isPath deep geometry live tree stored spine
    generalize whole : o :: tail = path at spine
    cases spine with
    | root bound =>
      obtain ⟨rfl, rfl⟩ := List.cons.inj whole
      refine spends_pure.mpr ((Pruned.refl stored).congr fun q _ => iff_false_intro ?_)
      rintro ⟨before, starts⟩
      obtain ⟨q, rfl⟩ := starts
      simp at before
    | @step q chain pre h k key above nonzero number inside =>
      obtain _ | ⟨o', pre⟩ := pre
      · exact absurd rfl above.nonempty
      obtain ⟨rfl, rfl⟩ := List.cons.inj whole
      have spine : Spine _ _ _ _ (⟨.block h, k, key⟩ :: q :: chain) _ := .step above nonzero number inside
      have isWhole : IsPath g.indirCount ((o :: pre) ++ [k]) := isPath
      have isPre : IsPath g.indirCount (o :: pre) := isWhole.upper (by simp)
      have prunable : Prunable disk g ptr [] (h :: handles (q :: chain)) (o :: pre) view w := by
        refine ⟨geometry, live, stored, tree, ?_⟩
        have on := spine.on isPath
        rwa [List.dropLast_concat] at on
      have leads : (Area.block h).Leads w.device (h :: handles (q :: chain)) view (w.state.inodes ptr).data (o :: pre) :=
        .block (List.mem_cons_self ..) (by simp) number nonzero
      have length := above.length
      have below : ∀ j, k + 1 ≤ j → j < k + 1 + (w.state.indirCount - (k + 1)) →
          IsPath g.indirCount (o :: pre ++ [j]) ∧ level (o :: pre ++ [j]) = o - 5 - (q :: chain).length - 1 ∧
            ¬ o :: pre ++ [j] <+: o :: pre := by
        intro j low high
        have count : w.state.indirCount = g.indirCount := congrArg Geometry.indirCount geometry
        refine ⟨⟨isPath.1, isPath.2.1.trans_eq' (by simp), fun a inPath => ?_⟩, ?_, fun starts => ?_⟩
        · rcases List.mem_append.mp inPath with old | new
          · exact isPre.2.2 a old
          · obtain rfl := List.mem_singleton.mp new
            omega
        · rw [List.cons_append, level_cons, ← length]
          simp only [List.length_append, List.length_cons, List.length_nil]
          omega
        · have shorter := starts.length_le
          simp at shorter
      unfold clearEnds
      refine spends_first free_get (meets_get.mpr ?_)
      refine spends_bind.mpr ((clearEntries_prunes layout _ prunable leads below).mono ?_)
      rintro _ n w₁ ⟨view₁, data₁, lost, freed, rfl, edits, prunes⟩
      have marked := works_markDirty edits.stored
      have released := works_unfix marked.stored
      have edits₃ := (edits.then marked).then released
      refine spends_first (Minix.free_markDirty _) ?_
      change Meets disk allowed (FsM.markDirty h) _ _
      refine meets_markDirty.mpr (spends_first (Minix.free_unfix _) ?_)
      change Meets disk allowed (FsM.unfix h) _ _
      refine meets_unfix.mpr ?_
      have clear : ∀ pre', pre' <+: o :: pre → ¬ ∃ j, k + 1 ≤ j ∧ j < k + 1 + (w.state.indirCount - (k + 1)) ∧
          o :: pre ++ [j] <+: pre' := by
        rintro pre' onSpine ⟨j, low, high, starts⟩
        exact (below j low high).2.2 (starts.trans onSpine)
      have spine₃ := above.congr (fun pre' onSpine _ some => by
        obtain ⟨rest, eq⟩ := onSpine
        exact prunes.kept pre' ((eq ▸ isPre).upper some) (clear pre' ⟨rest, eq⟩)) fun h' member =>
          edits₃.follows.number h' (stored.early (List.mem_cons_of_mem _ member))
      rw [← edits₃.data] at spine₃
      refine (edits₃.prunes_then prunes (ih isPre deep (edits₃.geometry.trans geometry) (edits₃.deleted.trans live)
        (edits₃.data ▸ prunes.tree tree) released.stored spine₃)).mono fun _ m w' pruned => pruned.congr fun q' isPath' => ?_
      rw [precedes_snoc]
      constructor
      · rintro ⟨before | ⟨j, more, starts⟩, first⟩
        · exact .inr ⟨before, first⟩
        · refine .inl ⟨j, more, ?_, starts⟩
          obtain ⟨rest, rfl⟩ := starts
          have small : j < g.indirCount := isPath'.2.2 j (by simp)
          have count : w.state.indirCount = g.indirCount := congrArg Geometry.indirCount geometry
          omega
      · rintro (⟨j, low, high, starts⟩ | ⟨before, first⟩)
        · exact ⟨.inr ⟨j, low, starts⟩, List.IsPrefix.trans ⟨pre ++ [j], by simp⟩ starts⟩
        · exact ⟨.inl before, first⟩

/-- What is cut off from a path on: everything after it, what is broken, and nothing else that is
mapped. -/
structure CutsFrom (m : Nat) (view : Nat → Bytes) (data : Nat → Nat) (path : List Nat) (broken cut : List Nat → Prop) :
    Prop where
  early : ∀ q, IsPath m q → Precedes q path → cut q → zoneOf view data q = 0 ∨ broken q
  late : ∀ q, IsPath m q → path <+: q ∨ Precedes path q → cut q
  broken : ∀ q, IsPath m q → broken q → cut q

section Cuts

variable {m : Nat} {data : Nat → Nat} {path : List Nat}

/-- What comes after a path below the same entry of the inode, and what is below the later ones. -/
theorem precedes_whole {o : Nat} {tail : List Nat} {q : List Nat} (isPath : IsPath m q) :
    Precedes (o :: tail) q ↔ (Precedes (o :: tail) q ∧ [o] <+: q) ∨ ∃ k, o < k ∧ k < 10 ∧ [k] <+: q := by
  obtain _ | ⟨j, q⟩ := q
  · exact isPath.elim
  have bound : j < 10 := isPath.1
  simp only [precedes_cons, List.cons_prefix_cons, List.nil_prefix, and_true]
  constructor
  · rintro (less | ⟨rfl, before⟩)
    · exact .inr ⟨j, less, bound, rfl⟩
    · exact .inl ⟨.inr ⟨rfl, before⟩, rfl⟩
  · rintro (⟨before, -⟩ | ⟨k, less, -, rfl⟩)
    · exact before
    · exact .inl less

theorem cutsFrom_before {pre zeros : List Nat} {k : Nat} {broken : List Nat → Prop} (positive : 0 < k)
    (allZero : ∀ z ∈ zeros, z = 0) (none : ∀ q, ¬ broken q) :
    CutsFrom m view data (pre ++ k :: zeros) broken (Precedes (pre ++ [k - 1])) := by
  refine ⟨fun q _ before after => ?_, fun q _ inside => ?_, fun q _ isBroken => absurd isBroken (none q)⟩
  · rcases precedes_snoc.mp after with after | ⟨b, more, q, rfl⟩
    · exact absurd before (after.extend _).asymm
    · rw [List.append_assoc, precedes_append_left] at before
      rcases before with less | ⟨rfl, before⟩
      · omega
      · exact absurd before (not_precedes_of_least Nat.zero_le allZero)
  · rw [precedes_snoc]
    rcases inside with ⟨q, rfl⟩ | after
    · exact .inr ⟨k, by omega, zeros ++ q, by simp⟩
    · rcases prefix_or_precedes after with ⟨q, rfl⟩ | after
      · rw [precedes_append_left] at after
        obtain _ | ⟨b, q⟩ := q
        · exact absurd after not_precedes_nil_right
        refine .inr ⟨b, ?_, q, by simp⟩
        rcases after with less | ⟨rfl, -⟩ <;> omega
      · exact .inl after

theorem cutsFrom_at {P : List Nat} {broken : List Nat → Prop} (starts : P <+: path)
    (empty : ∀ q, IsPath m q → P <+: q → Precedes q path → zoneOf view data q = 0 ∨ broken q)
    (below : ∀ q, broken q → P <+: q) : CutsFrom m view data path broken (fun q => P <+: q ∨ Precedes P q) := by
  refine ⟨fun q isPath before isCut => ?_, fun q _ inside => ?_, fun q _ isBroken => .inl (below q isBroken)⟩
  · rcases isCut with below | after
    · exact empty q isPath below before
    · obtain ⟨rest, rfl⟩ := starts
      exact absurd before (after.extend _).asymm
  · rcases inside with below | after
    · exact .inl (starts.trans below)
    · obtain ⟨rest, rfl⟩ := starts
      exact prefix_or_precedes after

theorem not_broken_root {disk : Disk Errno} {clock o : Nat} {q : List Nat} : ¬ Broken disk clock view data [o] q := by
  rintro ⟨R, unread, -⟩
  obtain ⟨rest, whole, more⟩ := unread.above
  have lengths := congrArg List.length whole
  have one := List.length_pos_iff.mpr unread.nonempty
  have two := List.length_pos_iff.mpr more
  simp only [dropZeroes, List.reverse_nil, List.dropWhile_nil, List.length_singleton, List.length_append] at lengths
  omega

theorem cutsFrom_direct {o : Nat} {broken : List Nat → Prop} (direct : o < 7) (none : ∀ q, ¬ broken q) :
    CutsFrom m view data [o] broken
      (fun q => (∃ k, o ≤ k ∧ k < o + (7 - o) ∧ [] ++ [k] <+: q) ∨ ∃ k, 7 + 0 ≤ k ∧ k < 10 ∧ [k] <+: q) := by
  refine ⟨fun q isPath before isCut => ?_, fun q isPath inside => ?_, fun q _ isBroken => absurd isBroken (none q)⟩
  all_goals obtain _ | ⟨j, q⟩ := q
  · exact isPath.elim
  · simp only [precedes_cons, not_precedes_nil_right, and_false, or_false] at before
    simp only [List.nil_append, List.cons_prefix_cons, List.nil_prefix, and_true] at isCut
    exact absurd isCut (by omega)
  · exact isPath.elim
  · have bound : j < 10 := isPath.1
    simp only [precedes_cons, not_precedes_nil_left, and_false, or_false, List.nil_append, List.cons_prefix_cons,
      List.nil_prefix, and_true] at inside ⊢
    rcases Nat.lt_or_ge j 7 with low | high
    · exact .inl ⟨j, by omega, by omega, rfl⟩
    · exact .inr ⟨j, by omega, by omega, rfl⟩

end Cuts

section Steps

variable (layout : g.Layout)
include layout

/-- The end of `truncate`. -/
theorem clearRest_prunes {whole : Nat} (bound : whole ≤ 3) (prunable : Prunable disk g ptr [] [] [] view w) :
    Spends (releases w.state.zoneMaps) disk allowed (do
      clearWhole ptr (3 - whole) whole
      setInode ptr .setDirty) (fun _ n w' =>
        Pruned disk g ptr [] [] view w (fun q => ∃ k, 7 + whole ≤ k ∧ k < 10 ∧ [k] <+: q) n w') w := by
  have none : ∀ k, 7 + whole ≤ k → ¬ [k] <+: [] := by simp
  refine spends_bind.mpr ((clearWhole_prunes layout (3 - whole) (by omega) prunable none).mono ?_)
  rintro _ n w' pruned
  obtain ⟨view', data', lost, freed, rfl, edits, prunes⟩ := pruned
  refine spends_last free_setInode ((meets_setInode (edits.deleted.trans prunable.live)).mpr ?_)
  have all : 7 + whole + (3 - whole) = 10 := by omega
  rw [all] at prunes
  exact ⟨view', data', lost, freed, rfl, edits.setDirty, prunes⟩

/-- What comes after a spine is cut off. -/
theorem clearAfter_prunes {o : Nat} {tail : List Nat} {chain : List Indirect} (isPath : IsPath g.indirCount (o :: tail))
    (deep : 7 ≤ o) (geometry : w.state.geometry = g) (live : (w.state.inodes ptr).deleted = false)
    (tree : Tree g view (w.state.inodes ptr).data) (stored : Stored disk w [] (handles chain) view)
    (spine : Spine g.indirCount w.device view (w.state.inodes ptr).data chain (o :: tail)) :
    Spends (releases w.state.zoneMaps) disk allowed (do
      clearEnds ptr (o - 5) chain
      clearWhole ptr (3 - (o + 1 - 7)) (o + 1 - 7)
      setInode ptr .setDirty) (fun _ n w' => Pruned disk g ptr [] [] view w (Precedes (o :: tail)) n w') w := by
  have bound : o < 10 := isPath.1
  refine spends_bind.mpr ((clearEnds_prunes layout chain isPath deep geometry live tree stored spine).mono ?_)
  rintro _ n w₁ ⟨view₁, data₁, lost, freed, rfl, edits, prunes⟩
  have prunable₁ : Prunable disk g ptr [] [] [] view₁ w₁ :=
    ⟨edits.geometry.trans geometry, edits.deleted.trans live, edits.stored, edits.data ▸ prunes.tree tree, by simp [OnSpine]⟩
  refine (edits.prunes_then prunes (clearRest_prunes layout (by omega) prunable₁)).mono fun _ m w' pruned =>
    pruned.congr fun q isPath' => (precedes_whole isPath').trans (or_congr_right (exists_congr fun k => ?_))
  constructor
  · exact fun ⟨low, rest⟩ => ⟨by omega, rest⟩
  · exact fun ⟨low, rest⟩ => ⟨by omega, rest⟩

/-- The entry at the end of a spine has been cut off, and what comes after it follows. -/
theorem Pruned.clearAfter {o : Nat} {tail : List Nat} {chain : List Indirect} {w' : World Fs} {n : Nat}
    (isPath : IsPath g.indirCount (o :: tail)) (deep : 7 ≤ o) (prunable : Prunable disk g ptr [] [] [] view w)
    (pruned : Pruned disk g ptr [] (handles chain) view w (o :: tail <+: ·) n w')
    (spine : Spine g.indirCount w'.device view (w.state.inodes ptr).data chain (o :: tail)) :
    Spends (releases w.state.zoneMaps) disk allowed (do
      clearEnds ptr (o - 5) chain
      clearWhole ptr (3 - (o + 1 - 7)) (o + 1 - 7)
      setInode ptr .setDirty) (fun _ m w'' =>
        Pruned disk g ptr [] [] view w (fun q => o :: tail <+: q ∨ Precedes (o :: tail) q) (n + m) w'') w' := by
  obtain ⟨view', data', lost, freed, rfl, edits, prunes⟩ := pruned
  have spine' : Spine g.indirCount w'.device view' (w'.state.inodes ptr).data chain (o :: tail) := by
    rw [edits.data]
    refine spine.congr (fun pre above other some => ?_) fun _ _ => rfl
    obtain ⟨post, split⟩ := above
    refine prunes.kept pre ((split ▸ isPath).upper some) fun below => other ?_
    exact List.IsPrefix.eq_of_length_le ⟨post, split⟩ below.length_le
  exact edits.prunes_then prunes (clearAfter_prunes layout isPath deep (edits.geometry.trans prunable.geometry)
    (edits.deleted.trans prunable.live) (edits.data ▸ prunes.tree prunable.tree) edits.stored spine')

/-- `truncate` once the shared part of a path is known. -/
theorem clearFrom_prunes {o : Nat} {rest P : List Nat} (isP : IsPath g.indirCount P) (deep : 7 ≤ o)
    (full : rest.length = o - 6) (prunable : Prunable disk g ptr [] [] [] view w) {shared : List Indirect} {top : Nat}
    {w₁ : World Fs} {view₁ : Nat → Bytes} {data₁ : Nat → Nat}
    (ends : EndsAt disk ptr g.indirCount view (w.state.inodes ptr).data (o :: rest) w shared top w₁ P view₁ data₁) :
    Spends (releases w.state.zoneMaps) disk allowed (do
      if top ≠ 0 then do
        match shared with
        | p :: _ :: _ => p.markDirty
        | _ => setInode ptr .setDirty
        freeBranch ptr ((o :: rest).length - shared.length) top
      else Pure.pure ()
      clearEnds ptr (o :: rest).length shared
      clearWhole ptr (3 - (o + 1 - 7)) (o + 1 - 7)
      setInode ptr .setDirty) (fun _ n w' =>
        Pruned disk g ptr [] [] view w (fun q => P <+: q ∨ Precedes P q) n w') w₁ := by
  obtain ⟨path, edits, written, rfl, spine, empty⟩ := ends
  obtain _ | ⟨o', tail⟩ := P
  · exact absurd rfl spine.nonempty
  obtain ⟨post, split⟩ := path
  obtain ⟨rfl, rfl⟩ : o' = o ∧ tail ++ post = rest := List.cons.inj split
  have off : ¬ o' :: tail <+: (o' :: tail).dropLast := fun below => by
    have shorter := below.length_le
    simp at shorter
  have length : (o' :: (tail ++ post)).length = o' - 5 := by
    rw [List.length_cons, full]
    omega
  have depth : (o' :: (tail ++ post)).length - shared.length = level (o' :: tail) := by
    rw [length, ← spine.length, level_cons, List.length_cons]
    omega
  rw [depth, length]
  by_cases zero : zoneOf view (w.state.inodes ptr).data (o' :: tail) = 0
  · simp only [zero, ne_eq, not_true, if_false]
    have cuts := written_cuts prunable.tree isP written
    have nothing : nodes g.indirCount (entry view) (level (o' :: tail)) (zoneOf view (w.state.inodes ptr).data (o' :: tail)) = 0 := by
      rw [zero, nodes_zero]
    have prunes : Prunes disk g view (w.state.inodes ptr).data view₁ data₁ _ 0 (o' :: tail <+: ·) :=
      cuts.prunes layout prunable.tree (nothing.symm ▸ .refl 0) (.refl _ _) (.refl _ _ _)
    have pruned : Pruned disk g ptr [] (handles shared) view w (o' :: tail <+: ·) 0 w₁ :=
      ⟨view₁, data₁, _, 0, rfl, edits, prunes⟩
    refine (pruned.clearAfter layout isP deep prunable spine).mono fun _ m w' done => ?_
    rwa [Nat.zero_add] at done
  have freed : ∀ w₂, Edits disk ptr w w₂ [] (handles shared) view₁ data₁ → w₁.device.Follows w₂.device →
      Spends (releases w.state.zoneMaps) disk allowed (do
        freeBranch ptr (level (o' :: tail)) (zoneOf view (w.state.inodes ptr).data (o' :: tail))
        clearEnds ptr (o' - 5) shared
        clearWhole ptr (3 - (o' + 1 - 7)) (o' + 1 - 7)
        setInode ptr .setDirty) (fun _ n w' =>
          Pruned disk g ptr [] [] view w (fun q => o' :: tail <+: q ∨ Precedes (o' :: tail) q) n w') w₂ := by
    intro w₂ edits₂ follows
    have spine₂ : Spine g.indirCount w₂.device view (w.state.inodes ptr).data shared (o' :: tail) :=
      spine.congr (fun _ _ _ _ => rfl) fun h member => follows.number h (edits.stored.early (by simp [member]))
    have freed : Spends _ disk allowed _ _ w₂ := freeBranch_prunes layout prunable.geometry prunable.live prunable.tree isP off
      zero edits₂ written (spine₂.on isP)
    refine spends_bind.mpr (freed.follows.mono ?_)
    rintro _ n w₃ ⟨follows₃, pruned⟩
    exact pruned.clearAfter layout isP deep prunable (spine₂.congr (fun _ _ _ _ => rfl) fun h member =>
      follows₃.number h (edits₂.stored.early (by simp [member])))
  rw [if_pos zero]
  rcases spine.ends with ⟨p, rfl⟩ | ⟨h, k, key, q, chain, rfl⟩
  · refine spends_first free_setInode ((meets_setInode (edits.deleted.trans prunable.live)).mpr ?_)
    exact freed _ edits.setDirty (.refl _)
  · have marked := works_markDirty edits.stored
    refine spends_first (Minix.free_markDirty _) ?_
    change Meets disk allowed (FsM.markDirty h) _ _
    exact meets_markDirty.mpr (freed _ (edits.then ⟨marked.state, marked.follows, marked.stored.pin⟩) marked.follows)

/-- `truncate` at a direct block. -/
theorem clearDirect_prunes {o : Nat} (direct : o < 7) (prunable : Prunable disk g ptr [] [] [] view w) :
    Spends (releases w.state.zoneMaps) disk allowed (do
      freeBranches ptr .inode o 7 0
      clearWhole ptr 3 0
      setInode ptr .setDirty) (fun _ n w' => ∃ cut, CutsFrom g.indirCount view (w.state.inodes ptr).data [o]
        (Broken disk w.device.clock view (w.state.inodes ptr).data [o]) cut ∧ Pruned disk g ptr [] [] view w cut n w') w := by
  have inside : ∀ k, o ≤ k → k < o + (7 - o) → IsPath g.indirCount ([] ++ [k]) ∧ level ([] ++ [k]) = 0 ∧
      ¬ [] ++ [k] <+: [] := by
    refine fun k _ high => ⟨⟨by omega, by simp, by simp⟩, ?_, by simp⟩
    rw [List.nil_append, level_cons]
    omega
  refine spends_bind.mpr ((clearEntries_prunes layout (7 - o) prunable .inode inside).mono ?_)
  rintro _ n w₁ ⟨view₁, data₁, lost, freed, rfl, edits, prunes⟩
  have prunable₁ : Prunable disk g ptr [] [] [] view₁ w₁ := prunable.after edits prunes (by simp)
  exact (edits.prunes_then prunes (clearRest_prunes layout (Nat.zero_le 3) prunable₁)).mono fun _ m w' pruned =>
    ⟨_, cutsFrom_direct direct fun q => not_broken_root, pruned⟩

/-- `truncate` at a block below indirect ones. -/
theorem clearIndirect_prunes {o : Nat} {rest : List Nat} (isPath : IsPath g.indirCount (o :: rest)) (deep : 7 ≤ o)
    (full : rest.length = o - 6) (prunable : Prunable disk g ptr [] [] [] view w) :
    Spends (releases w.state.zoneMaps) disk allowed (do
      let (shared, top) ← findShared ptr (o :: rest)
      if top ≠ 0 then do
        match shared with
        | p :: _ :: _ => p.markDirty
        | _ => setInode ptr .setDirty
        freeBranch ptr ((o :: rest).length - shared.length) top
      else Pure.pure ()
      clearEnds ptr (o :: rest).length shared
      clearWhole ptr (3 - (o + 1 - 7)) (o + 1 - 7)
      setInode ptr .setDirty) (fun _ n w' => ∃ cut,
        CutsFrom g.indirCount view (w.state.inodes ptr).data (o :: rest)
          (Broken disk w.device.clock view (w.state.inodes ptr).data (o :: rest)) cut ∧
          Pruned disk g ptr [] [] view w cut n w') w := by
  have here := prunable.geometry
  subst here
  refine spends_bind.mpr ((findShared_shares prunable.live layout prunable.tree isPath prunable.stored).mono ?_)
  rintro ⟨shared, top⟩ n w₁ ⟨rfl, ⟨none, pre, k, zeros, ends⟩ | ⟨P, view₁, data₁, ends⟩⟩
  · obtain rfl : top = 0 := none
    obtain ⟨path, nonempty, positive, allZero, works, spine, read⟩ := ends
    obtain _ | ⟨o', pre⟩ := pre
    · exact absurd rfl nonempty
    obtain ⟨rfl, rfl⟩ : o = o' ∧ rest = pre ++ k :: zeros := List.cons.inj path
    have isPath₁ : IsPath w.state.geometry.indirCount (o :: (pre ++ [k - 1])) := by
      refine ⟨isPath.1, isPath.2.1.trans' (by simp), fun a member => ?_⟩
      rcases List.mem_append.mp member with old | new
      · exact isPath.2.2 a (by simp [old])
      · obtain rfl := List.mem_singleton.mp new
        have bound := isPath.2.2 k (by simp)
        omega
    have length : (o :: (pre ++ k :: zeros)).length = o - 5 := by
      rw [List.length_cons, full]
      omega
    have edits : Edits disk ptr w w₁ [] (handles shared) view (w.state.inodes ptr).data := works.edits
    have after : Spends _ disk allowed _ _ w₁ := clearAfter_prunes layout isPath₁ deep edits.geometry
      (edits.deleted.trans prunable.live) (edits.data ▸ prunable.tree) works.stored (edits.data ▸ spine)
    dsimp only
    rw [if_neg (not_not.mpr rfl), length]
    refine (edits.prunes_then (.refl _ _ _ _) after).mono fun _ m w' pruned => ?_
    rw [Multiset.card_zero] at pruned
    have cuts : CutsFrom w.state.geometry.indirCount view (w.state.inodes ptr).data ((o :: pre) ++ k :: zeros)
        (Broken disk w.device.clock view (w.state.inodes ptr).data (o :: (pre ++ k :: zeros))) _ :=
      cutsFrom_before positive allZero fun _ ⟨R, unread, _⟩ => read R unread
    exact ⟨_, cuts, pruned.congr fun q _ => by
      rw [false_or]
      exact Iff.rfl⟩
  · obtain ⟨post, path⟩ := ends.path
    have isP : IsPath w.state.geometry.indirCount P := (path ▸ isPath).upper ends.spine.nonempty
    refine (clearFrom_prunes layout isP deep full prunable ends).mono fun _ m w' pruned => ?_
    rw [Nat.zero_add]
    exact ⟨_, cutsFrom_at ends.path ends.empty ends.broken, pruned⟩

/-- `truncate` at an addressable block. -/
theorem clearPath_prunes {block : Nat} (bound : block < addressable g.indirCount)
    (prunable : Prunable disk g ptr [] [] [] view w) {s : Fs} (same : s.indirCount = g.indirCount) :
    Spends (releases w.state.zoneMaps) disk allowed (match blockToPath s.indirCount block with
      | [] => Pure.pure ()
      | [offset] => do
        freeBranches ptr .inode offset 7 0
        clearWhole ptr 3 0
        setInode ptr .setDirty
      | offset :: rest => do
        let path := offset :: rest
        let (shared, nr) ← findShared ptr path
        if nr ≠ 0 then do
          match shared with
          | p :: _ :: _ => p.markDirty
          | _ => setInode ptr .setDirty
          freeBranch ptr (path.length - shared.length) nr
        else Pure.pure ()
        clearEnds ptr path.length shared
        clearWhole ptr (3 - (offset + 1 - 7)) (offset + 1 - 7)
        setInode ptr .setDirty) (fun _ n w' => ∃ cut,
          CutsFrom g.indirCount view (w.state.inodes ptr).data (blockToPath g.indirCount block)
            (Broken disk w.device.clock view (w.state.inodes ptr).data (blockToPath g.indirCount block)) cut ∧
              Pruned disk g ptr [] [] view w cut n w') w := by
  rw [same]
  have positive := layout.entries.2
  obtain ⟨isPath, full⟩ := blockToPath_isPath positive bound
  generalize blockToPath g.indirCount block = path at isPath full
  match path, isPath, full with
  | [o], isPath, full =>
    rw [level_cons, List.length_nil] at full
    exact clearDirect_prunes layout (by omega) prunable
  | o :: a :: rest, isPath, full =>
    rw [level_cons] at full
    have long := isPath.2.1
    exact clearIndirect_prunes layout isPath (by simp at long; omega) (by omega) prunable

end Steps

/-- The number of blocks that a file of this length has. -/
def blocksOf (g : Geometry) (length : Nat) : Nat := (length + g.blocksize - 1) / g.blocksize

/-- An inode that has been cut off at a length: the mapping of the blocks before it is kept, that of
the others is gone, and what the tree has lost is free. -/
structure CutOff (disk : Disk Errno) (g : Geometry) (ptr length : Nat) (view : Nat → Bytes) (w : World Fs)
    (freed : Multiset Nat) (w' : World Fs) (view' : Nat → Bytes) (data' : Nat → Nat) : Prop where
  state : ∃ dirty, w'.state = w.state.setInode ptr fun i => { i with size := length, data := data', dirty := dirty }
  follows : w.device.Follows w'.device
  stored : Stored disk w' [] [] view'
  mapped : ∀ b < addressable g.indirCount, zoneOf view' data' (blockToPath g.indirCount b) =
    if b < blocksOf g length then zoneOf view (w.state.inodes ptr).data (blockToPath g.indirCount b) else 0
  total : zones g.indirCount view' data' + freed = zones g.indirCount view (w.state.inodes ptr).data
  nodup : freed.Nodup
  frees : g.Frees view view' freed
  rest : ∀ n, ¬ g.IsZmap n → n ∉ arrays g.indirCount view (w.state.inodes ptr).data → view' n = view n

section Mappings

variable {m : Nat} {data data' : Nat → Nat} {view' : Nat → Bytes} {block b : Nat} {broken cut : List Nat → Prop}
  (positive : 0 < m) (cuts : CutsFrom m view data (blockToPath m block) broken cut) (bound : b < addressable m)
include positive cuts bound

theorem CutsFrom.mapped (kept : ∀ q, IsPath m q → ¬ cut q → zoneOf view' data' q = zoneOf view data q)
    (gone : ∀ q, IsPath m q → cut q → zoneOf view' data' q = 0) (before : b < block) (whole : ¬ broken (blockToPath m b)) :
    zoneOf view' data' (blockToPath m b) = zoneOf view data (blockToPath m b) := by
  have isPath := (blockToPath_isPath positive bound).1
  by_cases isCut : cut (blockToPath m b)
  · rw [gone _ isPath isCut, (cuts.early _ isPath (blockToPath_precedes before) isCut).resolve_right whole]
  · exact kept _ isPath isCut

theorem CutsFrom.unmapped (gone : ∀ q, IsPath m q → cut q → zoneOf view' data' q = 0)
    (late : block ≤ b ∨ broken (blockToPath m b)) : zoneOf view' data' (blockToPath m b) = 0 := by
  have isPath := (blockToPath_isPath positive bound).1
  refine gone _ isPath ?_
  rcases late with after | isBroken
  · refine cuts.late _ isPath ?_
    rcases Nat.eq_or_lt_of_le after with rfl | less
    · exact .inl (List.prefix_refl _)
    · exact .inr (blockToPath_precedes less)
  · exact cuts.broken _ isPath isBroken

end Mappings

theorem truncate_block {s : Fs} {length : Nat} (small : length < 9223372036854775808) :
    u64 (((length : Int) + s.blocksize - 1) / s.blocksize) = blocksOf s.geometry length := by
  have positive : 0 < s.blocksize := Nat.two_pow_pos _
  have cast : ((length : Int) + s.blocksize - 1) / s.blocksize = ((length + s.blocksize - 1) / s.blocksize : Nat) := by
    rw [Int.natCast_div, Int.natCast_sub (by omega)]
    rfl
  have bound : (length + s.blocksize - 1) / s.blocksize ≤ length := by
    refine Nat.le_of_lt_succ (Nat.div_lt_of_lt_mul ?_)
    have grown : length * 1 ≤ length * s.blocksize := Nat.mul_le_mul_left _ positive
    rw [Nat.mul_comm, Nat.succ_mul]
    omega
  rw [cast]
  unfold u64 blocksOf
  change _ = (length + s.blocksize - 1) / s.blocksize
  generalize (length + s.blocksize - 1) / s.blocksize = block at bound
  omega

/-- The inode with its new length. -/
def resize (s : Fs) (ptr : Nat) (length : Int) : Fs := s.setInode ptr fun i => { i with size := length, dirty := true }

@[simp] theorem resize_data (s : Fs) (ptr : Nat) (length : Int) : ((resize s ptr length).inodes ptr).data = (s.inodes ptr).data := by
  simp [resize]

theorem Prunable.resize (prunable : Prunable disk g ptr [] [] [] view w) (length : Int) :
    Prunable disk g ptr [] [] [] view ⟨resize w.state ptr length, w.device⟩ := by
  refine ⟨prunable.geometry, ?_, prunable.stored.follow rfl rfl rfl (.refl _) prunable.stored.holds, ?_, by simp [OnSpine]⟩
  · simpa [Minix.resize] using prunable.live
  · rw [resize_data]
    exact prunable.tree

/-- The inode has been cut off at the length, on any device. -/
def Truncated (disk : Disk Errno) (g : Geometry) (ptr length : Nat) (view : Nat → Bytes) (w : World Fs) (n : Nat)
    (w' : World Fs) : Prop :=
  ∃ cut,
    CutsFrom g.indirCount view (w.state.inodes ptr).data (blockToPath g.indirCount (blocksOf g length))
      (Broken disk w.device.clock view (w.state.inodes ptr).data (blockToPath g.indirCount (blocksOf g length))) cut ∧
        Pruned disk g ptr [] [] view ⟨resize w.state ptr length, w.device⟩ cut n w'

theorem truncate_prunes (layout : g.Layout) {length : Nat} (small : length < 9223372036854775808)
    (bound : blocksOf g length < addressable g.indirCount) (prunable : Prunable disk g ptr [] [] [] view w) :
    Spends (releases w.state.zoneMaps) disk allowed (truncate ptr length) (fun _ n w' => Truncated disk g ptr length view w n w') w := by
  have here := prunable.geometry
  subst here
  unfold truncate Truncated
  refine spends_first free_setInode ((meets_setInode prunable.live).mpr ?_)
  refine spends_first free_setInode ((meets_setInode (by simpa using prunable.live)).mpr ?_)
  refine spends_first free_get (meets_get.mpr ?_)
  dsimp only
  rw [setInode_setInode, truncate_block small, ← resize_data w.state ptr length, offsets_eq]
  · exact clearPath_prunes layout bound (prunable.resize length) rfl
  · exact layout.entries.2
  · exact layout.small.le
  · exact bound

theorem not_broken_of_reliable {clock : Nat} {data : Nat → Nat} {path q : List Nat} (reliable : Reliable disk) :
    ¬ Broken disk clock view data path q := fun ⟨_, unread, _⟩ => not_unread_of_reliable reliable unread

/-- On a device that never fails nothing is broken, and what is lost is freed. -/
theorem Truncated.cutOff (reliable : Reliable disk) (positive : 0 < g.indirCount) {length n : Nat} {w' : World Fs}
    (tree : Tree g view (w.state.inodes ptr).data) (truncated : Truncated disk g ptr length view w n w') :
    ∃ view' data' freed, n = freed.card ∧ CutOff disk g ptr length view w freed w' view' data' := by
  obtain ⟨cut, cuts, view', data', lost, freed, rfl, edits, prunes⟩ := truncated
  rw [resize_data] at prunes
  obtain rfl := prunes.part.whole reliable
  refine ⟨view', data', freed, rfl, ?_, edits.follows, edits.stored, fun b inside => ?_, prunes.total, ?_, prunes.frees,
    prunes.rest⟩
  · obtain ⟨dirty, state⟩ := edits.state
    exact ⟨dirty, by rw [state, resize, setInode_setInode]⟩
  · split
    · rename_i before
      exact cuts.mapped positive inside prunes.kept prunes.gone before (not_broken_of_reliable reliable)
    · rename_i after
      exact cuts.unmapped positive inside prunes.gone (.inl (Nat.not_lt.mp after))
  · have whole := tree.nodup
    rw [← prunes.total] at whole
    exact (Multiset.nodup_add.mp whole).2.1

/-- An inode that `truncate` has emptied: all its zones are free. -/
structure Emptied (disk : Disk Errno) (g : Geometry) (ptr : Nat) (kept pinned : List Nat)
    (view : Nat → Bytes) (w w' : World Fs) (view' : Nat → Bytes) (data' : Nat → Nat) : Prop where
  state : ∃ dirty, w'.state = w.state.setInode ptr fun i => { i with size := 0, data := data', dirty := dirty }
  follows : w.device.Follows w'.device
  stored : Stored disk w' kept pinned view'
  empty : ∀ o < 10, data' o = 0
  frees : g.Frees view view' (zones g.indirCount view (w.state.inodes ptr).data)
  rest : ∀ n, ¬ g.IsZmap n → n ∉ arrays g.indirCount view (w.state.inodes ptr).data → view' n = view n

/-- `truncate` to the length zero. -/
theorem truncate_frees (reliable : Reliable disk) (layout : g.Layout)
    (prunable : Prunable disk g ptr [] [] [] view w) :
    Meets disk allowed (truncate ptr 0)
      (fun _ w' => ∃ view' data', Emptied disk g ptr [] [] view w w' view' data') w := by
  have none : blocksOf g 0 = 0 := by
    have positive : 0 < g.blocksize := Nat.two_pow_pos _
    exact Nat.div_eq_of_lt (by omega)
  have bound : blocksOf g 0 < addressable g.indirCount := by
    rw [none]
    simp [addressable]
  refine ((truncate_prunes layout (Nat.zero_lt_succ _) bound prunable).mono ?_).meets
  rintro _ n w' ⟨cut, cuts, view', data', lost, freed, -, edits, prunes⟩
  rw [resize_data] at prunes
  rw [none] at cuts
  obtain rfl := prunes.part.whole reliable
  obtain ⟨rfl, empty⟩ := prunes.all fun o bound => cuts.late [o] ⟨bound, by simp, by simp⟩ (by
    rcases Nat.eq_zero_or_pos o with rfl | positive
    · exact .inl (List.prefix_refl _)
    · exact .inr (.inl positive))
  refine ⟨view', data', ?_, edits.follows, edits.stored, empty, prunes.frees, prunes.rest⟩
  obtain ⟨dirty, state⟩ := edits.state
  exact ⟨dirty, by rw [state, resize, setInode_setInode]; rfl⟩

end MPStuBS.Minix
