import MPStuBS.Ioapic

/-! The redirection table as the driver's callers know it, whatever the hardware changes meanwhile. -/
namespace MPStuBS.Ioapic

/-- An entry without the bits of the hardware. -/
structure Line where
  vector : BitVec 8
  deliveryMode : BitVec 3
  destinationMode : BitVec 1
  polarity : BitVec 1
  triggerMode : BitVec 1
  interruptMask : BitVec 1
  reserved : BitVec 39
  destination : BitVec 8
  deriving DecidableEq, Repr

abbrev Table := Fin slotMax → Line

inductive Call where
  | config (slot : Nat) (vector : BitVec 8) (triggerMode polarity : BitVec 1)
  | allow (slot : Nat)
  | forbid (slot : Nat)
  | status (slot : Nat)

section Abstract

/-- After `init`; the reserved bits are as they were. -/
def Line.initial (count : Nat) (l : Line) : Line :=
  ⟨panic, lowestPriority, logical, high, edge, masked, l.reserved, BitVec.ofNat 8 (2 ^ count - 1)⟩

def Table.change (t : Table) (slot : Nat) (f : Line → Line) : Option Table :=
  if exists' : slot < slotMax then some (Function.update t ⟨slot, exists'⟩ (f (t ⟨slot, exists'⟩))) else none

def Table.call (t : Table) : Call → Option (Option Bool × Table)
  | .config slot vector triggerMode polarity =>
    (t.change slot fun l => { l with vector, triggerMode, polarity }).map fun t => (none, t)
  | .allow slot => (t.change slot fun l => { l with interruptMask := 0 }).map fun t => (none, t)
  | .forbid slot => (t.change slot fun l => { l with interruptMask := 1 }).map fun t => (none, t)
  | .status slot =>
    if exists' : slot < slotMax then some (some (decide ((t ⟨slot, exists'⟩).interruptMask = 0)), t) else none

def Table.run : Table → List Call → Option (List (Option Bool) × Table)
  | t, [] => some ([], t)
  | t, c :: rest =>
    (t.call c).bind fun (answer, t) => (Table.run t rest).map fun (answers, t) => (answer :: answers, t)

end Abstract

section Calls

variable (signals : Nat → List Signal)

def Call.run (d : Device) : Call → Option (Option Bool × Device)
  | .config slot vector triggerMode polarity =>
    (Ioapic.config signals slot vector triggerMode polarity d).map fun d => (none, d)
  | .allow slot => (Ioapic.allow signals slot d).map fun d => (none, d)
  | .forbid slot => (Ioapic.forbid signals slot d).map fun d => (none, d)
  | .status slot => (Ioapic.status signals slot d).map fun (answer, d) => (some answer, d)

def runCalls : Device → List Call → Option (List (Option Bool) × Device)
  | d, [] => some ([], d)
  | d, c :: rest =>
    (c.run signals d).bind fun (answer, d) => (runCalls d rest).map fun (answers, d) => (answer :: answers, d)

end Calls

section Settled

/-- What a register shows without the bits of the hardware. -/
def settled (index value : Register) : Register :=
  if Device.isLow index then Signal.status32.set 0 (Signal.irr32.set 0 value) else value

def Device.settled (d : Device) : Register → Register := fun index => Ioapic.settled index (d.registers index)

theorem apart : BitField.Apart Signal.status32 Signal.irr32 := by decide

theorem settled_signal (index : Register) (x y : BitVec 1) (value : Register) (isLow : Device.isLow index) :
    settled index (Signal.status32.set x (Signal.irr32.set y value)) = settled index value := by
  unfold settled
  rw [if_pos isLow, if_pos isLow, BitField.set_comm apart.symm, BitField.set_set, ← BitField.set_comm apart.symm,
    ← BitField.set_comm apart, BitField.set_set]

theorem isLow_lowIndex (slot : Fin slotMax) : Device.isLow (lowIndex slot) := by
  revert slot
  decide

theorem not_isLow_highIndex (slot : Fin slotMax) : ¬ Device.isLow (highIndex slot) := by
  revert slot
  decide

variable (signals : Nat → List Signal) (d : Device)

theorem signal_settled (signal : Signal) : (d.signal signal).settled = d.settled := by
  funext index
  unfold Device.settled Device.signal
  dsimp only
  by_cases this : index = lowIndex signal.slot
  · subst this
    rw [Function.update_self, settled_signal _ _ _ _ (isLow_lowIndex signal.slot)]
  · rw [Function.update_of_ne this]

theorem foldl_signal (l : List Signal) : ∀ d : Device, (l.foldl Device.signal d).settled = d.settled ∧
    (l.foldl Device.signal d).select = d.select := by
  induction l with
  | nil => exact fun _ => ⟨rfl, rfl⟩
  | cons signal l ih =>
    intro d
    obtain ⟨settled, select⟩ := ih (d.signal signal)
    exact ⟨settled.trans (signal_settled d signal), select⟩

theorem tick_settled : (d.tick signals).settled = d.settled := (foldl_signal _ _).1

theorem tick_select : (d.tick signals).select = d.select := (foldl_signal _ _).2

theorem writeSelect_settled (value : Register) : (d.writeSelect signals value).settled = d.settled :=
  tick_settled signals d

theorem readSelect_settled : (d.readSelect signals).2.settled = d.settled := tick_settled signals d

theorem readSelect_select : (d.readSelect signals).1 = d.select := tick_select signals d

theorem readWindow_settled : (d.readWindow signals).2.settled = d.settled := tick_settled signals d

theorem readWindow_select : (d.readWindow signals).2.select = d.select := tick_select signals d

theorem readWindow_value : settled d.select (d.readWindow signals).1 = d.settled d.select := by
  rw [← tick_settled signals d]
  unfold Device.readWindow Device.settled
  rw [tick_select]

theorem writeWindow_select (value : Register) : (d.writeWindow signals value).select = d.select :=
  tick_select signals d

theorem writeWindow_settled (value : Register) :
    (d.writeWindow signals value).settled = Function.update d.settled d.select (settled d.select value) := by
  rw [← tick_settled signals d]
  funext index
  unfold Device.writeWindow Device.settled
  dsimp only
  rw [tick_select]
  by_cases this : index = d.select
  · subst this
    rw [Function.update_self, Function.update_self]
    split
    · rename_i isLow
      exact settled_signal _ _ _ _ isLow
    · rfl
  · rw [Function.update_of_ne this, Function.update_of_ne this]

end Settled

section Entries

def line (entry : RedirectionTableEntry) : Line where
  vector := RedirectionTableEntry.vector.get entry
  deliveryMode := RedirectionTableEntry.deliveryMode.get entry
  destinationMode := RedirectionTableEntry.destinationMode.get entry
  polarity := RedirectionTableEntry.polarity.get entry
  triggerMode := RedirectionTableEntry.triggerMode.get entry
  interruptMask := RedirectionTableEntry.interruptMask.get entry
  reserved := RedirectionTableEntry.reserved.get entry
  destination := RedirectionTableEntry.destination.get entry

theorem line_status (x : BitVec 1) (e : RedirectionTableEntry) :
    line (RedirectionTableEntry.deliveryStatus.set x e) = line e := by
  simp (disch := decide) only [line, BitField.get_set_apart]

theorem line_irr (x : BitVec 1) (e : RedirectionTableEntry) :
    line (RedirectionTableEntry.remoteIrr.set x e) = line e := by
  simp (disch := decide) only [line, BitField.get_set_apart]

theorem line_settled (slot : Fin slotMax) (upper lower : Register) :
    line (upper ++ settled (lowIndex slot) lower) = line (upper ++ lower) := by
  have status := BitField.set_append (m := 32) Signal.status32 0 upper (Signal.irr32.set 0 lower)
  have irr := BitField.set_append (m := 32) Signal.irr32 0 upper lower
  unfold settled
  rw [if_pos (isLow_lowIndex slot), ← status, ← irr]
  exact (line_status 0 _).trans (line_irr 0 _)

theorem high_append_low (entry : RedirectionTableEntry) :
    (RedirectionTableEntry.high.get entry ++ RedirectionTableEntry.low.get entry : BitVec 64) = entry := by
  refine BitVec.eq_of_getLsbD_eq fun i inside => ?_
  have word : i < 64 := inside
  rw [BitVec.getLsbD_append, BitField.getLsbD_get, BitField.getLsbD_get]
  split
  · rename_i lower
    have half : i < 32 := lower
    simp [half]
  · rename_i upper
    have half : ¬ i < 32 := upper
    have rest : i - 32 < 32 := by omega
    have back : 32 + (i - 32) = i := by omega
    simp [rest, back]

theorem lowIndex_toNat (slot : Fin slotMax) : (lowIndex slot).toNat = 16 + 2 * slot := by
  revert slot
  decide

theorem highIndex_toNat (slot : Fin slotMax) : (highIndex slot).toNat = 17 + 2 * slot := by
  revert slot
  decide

variable (signals : Nat → List Signal) (slot : Fin slotMax) (d : Device)

def entry (registers : Register → Register) (slot : Nat) : RedirectionTableEntry :=
  registers (highIndex slot) ++ registers (lowIndex slot)

theorem readEntry_settled (slot : Nat) : (readEntry signals slot d).2.settled = d.settled := by
  unfold readEntry
  dsimp only
  rw [readWindow_settled, writeSelect_settled, readSelect_settled, readWindow_settled, writeSelect_settled]

theorem settled_high (value : Register) : settled (highIndex slot) value = value := if_neg (not_isLow_highIndex slot)

theorem next_index (slot : Nat) : lowIndex slot + ioredtblEntrySize / 2 = highIndex slot := rfl

theorem readEntry_line : line (readEntry signals slot d).1 = line (entry d.settled slot) := by
  unfold readEntry entry
  dsimp only
  generalize first : d.writeSelect signals (lowIndex slot) = d1
  have select : d1.select = lowIndex slot := by
    rw [← first]
    rfl
  have same : d1.settled = d.settled := by
    rw [← first, writeSelect_settled]
  rw [readSelect_select, readWindow_select, select, next_index]
  generalize second : ((d1.readWindow signals).2.readSelect signals).2.writeSelect signals (highIndex slot) = d2
  have select' : d2.select = highIndex slot := by
    rw [← second]
    rfl
  have same' : d2.settled = d.settled := by
    rw [← second, writeSelect_settled, readSelect_settled, readWindow_settled, same]
  have lower := readWindow_value signals d1
  have upper := readWindow_value signals d2
  rw [select, same] at lower
  rw [select', same', settled_high] at upper
  rw [← upper, ← lower, line_settled]

theorem writeEntry_settled (e : RedirectionTableEntry) : (writeEntry signals slot e d).settled =
    Function.update (Function.update d.settled (lowIndex slot)
      (settled (lowIndex slot) (RedirectionTableEntry.low.get e))) (highIndex slot)
      (RedirectionTableEntry.high.get e) := by
  unfold writeEntry
  dsimp only
  rw [readSelect_select, writeWindow_select, writeWindow_settled, writeSelect_settled, readSelect_settled,
    writeWindow_settled, writeSelect_settled]
  exact congrArg _ (settled_high slot _)

theorem highIndex_ne (s t : Fin slotMax) : highIndex s ≠ lowIndex t := by
  intro same
  have numbers := congrArg BitVec.toNat same
  rw [highIndex_toNat, lowIndex_toNat] at numbers
  omega

/-- The lines of the table. -/
def table (d : Device) : Table := fun slot => line (entry d.settled slot)

theorem table_writeEntry (e : RedirectionTableEntry) :
    table (writeEntry signals slot e d) = Function.update (table d) slot (line e) := by
  funext s
  unfold table entry
  rw [writeEntry_settled, Function.update_of_ne (highIndex_ne slot s).symm]
  by_cases this : s = slot
  · subst this
    rw [Function.update_self, Function.update_self, Function.update_self, line_settled, high_append_low]
  · have apart : (s : Nat) ≠ slot := fun same => this (Fin.ext same)
    have upper : highIndex s ≠ highIndex slot := by
      intro same
      have numbers := congrArg BitVec.toNat same
      rw [highIndex_toNat, highIndex_toNat] at numbers
      omega
    have lower : lowIndex s ≠ lowIndex slot := by
      intro same
      have numbers := congrArg BitVec.toNat same
      rw [lowIndex_toNat, lowIndex_toNat] at numbers
      omega
    rw [Function.update_of_ne upper, Function.update_of_ne (highIndex_ne s slot), Function.update_of_ne lower,
      Function.update_of_ne this]

end Entries

section Runs

variable (signals : Nat → List Signal) (d : Device)

theorem change_table {slot : Nat} {f : RedirectionTableEntry → RedirectionTableEntry} {g : Line → Line}
    (same : ∀ e, line (f e) = g (line e)) : (change signals slot f d).map table = (table d).change slot g := by
  unfold change Table.change
  split
  · rename_i exists'
    have read : table (readEntry signals slot d).2 = table d := by
      unfold table
      rw [readEntry_settled]
    have value := readEntry_line signals ⟨slot, exists'⟩ d
    have written := table_writeEntry signals ⟨slot, exists'⟩ (readEntry signals slot d).2
      (f (readEntry signals slot d).1)
    rw [Option.map_some]
    dsimp only at value written ⊢
    rw [written, read, same, value]
    rfl
  · rfl

theorem line_config (vector : BitVec 8) (triggerMode polarity : BitVec 1) (e : RedirectionTableEntry) :
    line (RedirectionTableEntry.polarity.set polarity (RedirectionTableEntry.triggerMode.set triggerMode
      (RedirectionTableEntry.vector.set vector e))) = { line e with vector, triggerMode, polarity } := by
  simp (disch := decide) only [line, BitField.get_set, BitField.get_set_apart]

theorem line_mask (x : BitVec 1) (e : RedirectionTableEntry) :
    line (RedirectionTableEntry.interruptMask.set x e) = { line e with interruptMask := x } := by
  simp (disch := decide) only [line, BitField.get_set, BitField.get_set_apart]

theorem line_initEntry (count : Nat) (e : RedirectionTableEntry) :
    line (initEntry count e) = (line e).initial count := by
  simp (disch := decide) only [line, initEntry, Line.initial, BitField.get_set, BitField.get_set_apart]

theorem status_table (slot : Nat) : (Ioapic.status signals slot d).map (fun r => (some r.1, table r.2)) =
    (table d).call (.status slot) := by
  unfold Ioapic.status Table.call
  dsimp only
  split
  · rename_i exists'
    have read : table (readEntry signals slot d).2 = table d := by
      unfold table
      rw [readEntry_settled]
    have value : (line (readEntry signals slot d).1).interruptMask = (table d ⟨slot, exists'⟩).interruptMask :=
      congrArg Line.interruptMask (readEntry_line signals ⟨slot, exists'⟩ d)
    rw [Option.map_some, read, ← value]
    rfl
  · rfl

theorem call_refines (c : Call) :
    (c.run signals d).map (fun r => (r.1, table r.2)) = (table d).call c := by
  cases c with
  | config slot vector triggerMode polarity =>
    have changed : (Ioapic.config signals slot vector triggerMode polarity d).map table =
        (table d).change slot fun l => { l with vector, triggerMode, polarity } :=
      change_table signals d (line_config vector triggerMode polarity)
    unfold Call.run Table.call
    dsimp only
    rw [← changed, Option.map_map, Option.map_map]
    rfl
  | allow slot =>
    have changed : (Ioapic.allow signals slot d).map table =
        (table d).change slot fun l => { l with interruptMask := 0 } := change_table signals d (line_mask unmasked)
    unfold Call.run Table.call
    dsimp only
    rw [← changed, Option.map_map, Option.map_map]
    rfl
  | forbid slot =>
    have changed : (Ioapic.forbid signals slot d).map table =
        (table d).change slot fun l => { l with interruptMask := 1 } := change_table signals d (line_mask masked)
    unfold Call.run Table.call
    dsimp only
    rw [← changed, Option.map_map, Option.map_map]
    rfl
  | status slot =>
    rw [← status_table]
    unfold Call.run
    rw [Option.map_map]
    rfl

theorem runCalls_refines (calls : List Call) : (runCalls signals d calls).map (fun r => (r.1, table r.2)) =
    (table d).run calls := by
  induction calls generalizing d with
  | nil => rfl
  | cons c rest ih =>
    unfold runCalls Table.run
    rw [← call_refines signals d c]
    cases c.run signals d with
    | none => rfl
    | some r =>
      rw [Option.map_some, Option.bind_some, Option.bind_some]
      dsimp only
      rw [← ih, Option.map_map, Option.map_map]
      rfl

theorem initSlots_table (count : Nat) : ∀ (n slot : Nat) (d : Device), slot + n ≤ slotMax →
    table (initSlots signals count slot n d) = fun s : Fin slotMax =>
      if slot ≤ s.val ∧ s.val < slot + n then (table d s).initial count else table d s
  | 0, slot, d, _ => by
    funext s
    rw [if_neg (by omega)]
    rfl
  | n + 1, slot, d, fits => by
    have exists' : slot < slotMax := by omega
    have read : table (readEntry signals slot d).2 = table d := by
      unfold table
      rw [readEntry_settled]
    have value := readEntry_line signals ⟨slot, exists'⟩ d
    have written := table_writeEntry signals ⟨slot, exists'⟩ (readEntry signals slot d).2
      (initEntry count (readEntry signals slot d).1)
    unfold initSlots
    dsimp only at value written ⊢
    rw [initSlots_table count n (slot + 1) _ (by omega), written, read, line_initEntry, value]
    funext s
    by_cases this : s = ⟨slot, exists'⟩
    · subst this
      rw [Function.update_self]
      dsimp only
      rw [if_neg (by omega), if_pos ⟨Nat.le_refl _, by omega⟩]
      rfl
    · have apart : (s : Nat) ≠ slot := fun same => this (Fin.ext same)
      have same : (slot + 1 ≤ (s : Nat) ∧ (s : Nat) < slot + 1 + n) ↔
          (slot ≤ (s : Nat) ∧ (s : Nat) < slot + (n + 1)) := by omega
      rw [Function.update_of_ne this, if_congr same rfl rfl]

theorem initSlots_settled (count : Nat) (index : Register) (other : ∀ slot : Fin slotMax, index ≠ lowIndex slot ∧
    index ≠ highIndex slot) : ∀ (n slot : Nat) (d : Device), slot + n ≤ slotMax →
      (initSlots signals count slot n d).settled index = d.settled index
  | 0, _, _, _ => rfl
  | n + 1, slot, d, fits => by
    have exists' : slot < slotMax := by omega
    have apart := other ⟨slot, exists'⟩
    have written := writeEntry_settled signals ⟨slot, exists'⟩ (readEntry signals slot d).2
      (initEntry count (readEntry signals slot d).1)
    unfold initSlots
    dsimp only at apart written ⊢
    rw [initSlots_settled count index other n (slot + 1) _ (by omega), written, Function.update_of_ne apart.2,
      Function.update_of_ne apart.1, readEntry_settled]

theorem settled_id (value : Register) : settled ioapicidIdx value = value := if_neg (by decide)

theorem idIdx_apart (slot : Fin slotMax) : ioapicidIdx ≠ lowIndex slot ∧ ioapicidIdx ≠ highIndex slot := by
  revert slot
  decide

theorem init_settled (count : Nat) (id : BitVec 8) : (init signals count id d).settled =
    Function.update (initSlots signals count 0 slotMax d).settled ioapicidIdx
      (Identification.id.set (id.setWidth 4) (d.settled ioapicidIdx)) := by
  have before := initSlots_settled signals count ioapicidIdx idIdx_apart slotMax 0 d (Nat.le_of_eq (Nat.zero_add _))
  unfold init
  dsimp only
  generalize written : (initSlots signals count 0 slotMax d).writeSelect signals ioapicidIdx = d1
  have select : d1.select = ioapicidIdx := by
    rw [← written]
    rfl
  have same : d1.settled = (initSlots signals count 0 slotMax d).settled := by
    rw [← written, writeSelect_settled]
  have value := readWindow_value signals d1
  rw [select, same, settled_id, before] at value
  rw [writeWindow_settled, readWindow_settled, readWindow_select, select, settled_id, same, value]

theorem init_table (count : Nat) (id : BitVec 8) :
    table (init signals count id d) = fun s => (table d s).initial count := by
  have whole := initSlots_table signals count slotMax 0 d (Nat.le_of_eq (Nat.zero_add _))
  funext s
  unfold table entry
  rw [init_settled, Function.update_of_ne (idIdx_apart s).2.symm, Function.update_of_ne (idIdx_apart s).1.symm]
  have at' := congrFun whole s
  rw [if_pos ⟨Nat.zero_le _, by omega⟩] at at'
  exact at'

/-- After `init` the driver is a table with a line for each source: whatever signals the hardware stores in it between
the accesses, the calls answer and change it as they would the lines, and fail where they have no such slot. -/
theorem driver_refines (count : Nat) (id : BitVec 8) (calls : List Call) :
    (runCalls signals (init signals count id d) calls).map (fun r => (r.1, table r.2)) =
        Table.run (fun s => (table d s).initial count) calls ∧
      (init signals count id d).settled ioapicidIdx =
        Identification.id.set (id.setWidth 4) (d.settled ioapicidIdx) := by
  constructor
  · rw [runCalls_refines, init_table]
  · rw [init_settled, Function.update_self]

end Runs

end MPStuBS.Ioapic
