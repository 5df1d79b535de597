import MPStuBS.ByteMemory

/-! The entries of the interrupt controllers in the table of the firmware: the loop of `APIC::init`
over the sub-headers of the MADT. Offsets are counted from the start of the table. -/
namespace MPStuBS.APIC

/-- Bytes that are read together. -/
structure Field where
  start : Nat
  size : Nat
  deriving DecidableEq, Repr

structure IoApic where
  id : Nat
  address : Nat
  interruptBase : Nat
  deriving DecidableEq, Repr

/-- What `init` collects. -/
structure State where
  ioapic : IoApic
  slotMap : Nat → Nat
  lapicId : Nat → Nat
  lapics : Nat
  baseAddress : Nat

def maxCores : Nat := 8
def invalidId : Nat := 0xff

def set (map : Nat → Nat) (i value : Nat) : Nat → Nat := fun j => if j = i then value else map j

/-- `sizeof(MADT)`. -/
def first : Nat := 44

/-- `SDTH::end`: the length of the table. -/
def tableEnd (madt : Bytes) : Nat := madt.u32 4

def typeOf (madt : Bytes) (mads : Nat) : Nat := (madt mads).toNat
def lengthOf (madt : Bytes) (mads : Nat) : Nat := (madt (mads + 1)).toNat

/-- `SubHeader::next`. -/
def next (madt : Bytes) (mads : Nat) : Nat := mads + lengthOf madt mads

/-- `Type_LAPIC`. The flag is one bit of its byte. -/
def localApic (madt : Bytes) (mads : Nat) (s : State) : State × List Field :=
  let apicId := (madt (mads + 3)).toNat
  if (madt (mads + 4)).toNat % 2 = 0 then (s, [⟨mads + 4, 1⟩, ⟨mads + 3, 1⟩])
  else if maxCores ≤ s.lapics then (s, [⟨mads + 4, 1⟩])
  else if apicId = invalidId then (s, [⟨mads + 4, 1⟩, ⟨mads + 3, 1⟩])
  else ({ s with lapicId := set s.lapicId s.lapics apicId, lapics := s.lapics + 1 }, [⟨mads + 4, 1⟩, ⟨mads + 3, 1⟩])

/-- `Type_IOAPIC`. -/
def ioApic (madt : Bytes) (mads : Nat) (s : State) : State × List Field :=
  let base := madt.u32 (mads + 8)
  if 23 < base then (s, [⟨mads + 2, 1⟩, ⟨mads + 8, 4⟩])
  else ({ s with ioapic := ⟨(madt (mads + 2)).toNat, madt.u32 (mads + 4), base⟩ }, [⟨mads + 2, 1⟩, ⟨mads + 8, 4⟩, ⟨mads + 4, 4⟩])

/-- `Type_Interrupt_Source_Override`. -/
def sourceOverride (madt : Bytes) (mads : Nat) (s : State) : State × List Field :=
  let source := (madt (mads + 3)).toNat
  if (madt (mads + 2)).toNat = 0 then
    (if source < 16 then { s with slotMap := set s.slotMap source (madt.u32 (mads + 4) % 256) } else s,
      [⟨mads + 2, 1⟩, ⟨mads + 3, 1⟩, ⟨mads + 4, 4⟩])
  else (s, [⟨mads + 2, 1⟩])

/-- `Type_LAPIC_Address_Override`. -/
def addressOverride (madt : Bytes) (mads : Nat) (s : State) : State × List Field :=
  ({ s with baseAddress := madt.u32 (mads + 4) }, [⟨mads + 4, 4⟩, ⟨mads + 4, 8⟩])

/-- The body of the loop, with the fields of the entry that it reads, also for the debug output. -/
def visit (madt : Bytes) (mads : Nat) (s : State) : State × List Field :=
  match typeOf madt mads with
  | 0 => localApic madt mads s
  | 1 => ioApic madt mads s
  | 2 => sourceOverride madt mads s
  | 5 => addressOverride madt mads s
  | _ => (s, [])

/-- The loop from an entry on, with what it reads; there is no result if it does not end within the fuel. -/
def scan (madt : Bytes) : Nat → Nat → State → Option (State × List Field)
  | 0, _, _ => none
  | fuel + 1, mads, s =>
    if mads < tableEnd madt then
      match scan madt fuel (next madt mads) (visit madt mads s).1 with
      | none => none
      | some (s', fields) => some (s', ⟨4, 4⟩ :: ⟨mads, 1⟩ :: (visit madt mads s).2 ++ ⟨mads + 1, 1⟩ :: fields)
    else some (s, [⟨4, 4⟩])

/-- The bytes of an entry that its branch needs. -/
def extent (madt : Bytes) (mads : Nat) : Nat :=
  match typeOf madt mads with
  | 0 => 5
  | 1 => 12
  | 2 => if (madt (mads + 2)).toNat = 0 then 8 else 3
  | 5 => 12
  | _ => 2

/-- The entries that the loop comes to from an entry. -/
inductive Reached (madt : Bytes) (start : Nat) : Nat → Prop
  | here : Reached madt start start
  | next {mads : Nat} (before : Reached madt start mads) (inside : mads < tableEnd madt) : Reached madt start (next madt mads)

/-- An entry can be left, and what is read of it is in the table. -/
structure Sound (madt : Bytes) (mads : Nat) : Prop where
  advances : lengthOf madt mads ≠ 0
  inside : mads + extent madt mads ≤ tableEnd madt

/-- A field is in the table. -/
def Field.Inside (madt : Bytes) (f : Field) : Prop := f.start + f.size ≤ tableEnd madt

variable {madt : Bytes} {mads start : Nat} {s : State}

/-- What is read of an entry is in the table exactly if its extent is. -/
theorem visit_inside : (∀ f ∈ (visit madt mads s).2, f.Inside madt) ∧ mads + 2 ≤ tableEnd madt ↔
    mads + extent madt mads ≤ tableEnd madt := by
  unfold visit extent
  split
  · unfold localApic Field.Inside
    dsimp only
    split
    · simp only [List.forall_mem_cons, List.not_mem_nil, false_implies, implies_true, and_true]
      omega
    split
    · simp only [List.forall_mem_cons, List.not_mem_nil, false_implies, implies_true, and_true]
      omega
    split
    all_goals
      simp only [List.forall_mem_cons, List.not_mem_nil, false_implies, implies_true, and_true]
      omega
  · unfold ioApic Field.Inside
    dsimp only
    split
    all_goals
      simp only [List.forall_mem_cons, List.not_mem_nil, false_implies, implies_true, and_true]
      omega
  · unfold sourceOverride Field.Inside
    dsimp only
    split
    all_goals
      simp only [List.forall_mem_cons, List.not_mem_nil, false_implies, implies_true, and_true]
      omega
  · unfold addressOverride Field.Inside
    simp only [List.forall_mem_cons, List.not_mem_nil, false_implies, implies_true, and_true]
    omega
  · simp only [List.not_mem_nil, false_implies, implies_true, true_and]

/-- The entries that are reached from an entry are itself and those from the next one. -/
theorem reached_cases {mads' : Nat} (reached : Reached madt mads mads') :
    mads' = mads ∨ mads < tableEnd madt ∧ Reached madt (next madt mads) mads' := by
  induction reached with
  | here => exact Or.inl rfl
  | next before inside ih =>
    rcases ih with rfl | ⟨less, reached⟩
    · exact Or.inr ⟨inside, .here⟩
    · exact Or.inr ⟨less, .next reached inside⟩

theorem reached_next {mads' : Nat} (inside : mads < tableEnd madt) (reached : Reached madt (next madt mads) mads') :
    Reached madt mads mads' := by
  induction reached with
  | here => exact .next .here inside
  | next before inside ih => exact .next ih inside

theorem scan_inside {fuel : Nat} (less : mads < tableEnd madt) : scan madt (fuel + 1) mads s =
    (scan madt fuel (next madt mads) (visit madt mads s).1).map fun (s', fields) =>
      (s', ⟨4, 4⟩ :: ⟨mads, 1⟩ :: (visit madt mads s).2 ++ ⟨mads + 1, 1⟩ :: fields) := by
  rw [scan, if_pos less]
  cases scan madt fuel (next madt mads) (visit madt mads s).1 <;> rfl

theorem scan_beyond {fuel : Nat} (beyond : tableEnd madt ≤ mads) : scan madt (fuel + 1) mads s = some (s, [⟨4, 4⟩]) := by
  rw [scan, if_neg (Nat.not_lt.mpr beyond)]

/-- The fields that are read in a turn are in the table if and only if the length of the table, the entry and all
that comes after it are. -/
theorem turn_inside {fields : List Field} (less : mads < tableEnd madt) :
    (∀ f ∈ ⟨4, 4⟩ :: ⟨mads, 1⟩ :: (visit madt mads s).2 ++ ⟨mads + 1, 1⟩ :: fields, f.Inside madt) ↔
      8 ≤ tableEnd madt ∧ mads + extent madt mads ≤ tableEnd madt ∧ ∀ f ∈ fields, f.Inside madt := by
  rw [← visit_inside (s := s), List.cons_append, List.cons_append, List.forall_mem_cons, List.forall_mem_cons,
    List.forall_mem_append, List.forall_mem_cons]
  constructor
  · rintro ⟨header, -, entry, length, rest⟩
    exact ⟨header, ⟨entry, length⟩, rest⟩
  · rintro ⟨header, ⟨entry, length⟩, rest⟩
    exact ⟨header, less, entry, length, rest⟩

/-- A loop that does not advance does not end. -/
theorem scan_stuck (less : mads < tableEnd madt) (stuck : lengthOf madt mads = 0) (fuel : Nat) : scan madt fuel mads s = none := by
  induction fuel generalizing s with
  | zero => rfl
  | succ fuel ih =>
    have stays : next madt mads = mads := by
      unfold next
      rw [stuck, Nat.add_zero]
    rw [scan_inside less, stays, ih]
    rfl

/-- A loop that ends and reads inside of the table has been at sound entries only. -/
theorem sound_of_scan {fuel : Nat} {fields : List Field} {s' : State} (scans : scan madt fuel mads s = some (s', fields))
    (inside : ∀ f ∈ fields, f.Inside madt) :
    8 ≤ tableEnd madt ∧ ∀ mads', Reached madt mads mads' → mads' < tableEnd madt → Sound madt mads' := by
  induction fuel generalizing mads s fields with
  | zero => exact nomatch scans
  | succ fuel ih =>
    by_cases less : mads < tableEnd madt
    · have advances : lengthOf madt mads ≠ 0 := fun stuck =>
        nomatch (scan_stuck less stuck (fuel + 1)).symm.trans scans
      rw [scan_inside less] at scans
      obtain ⟨⟨_, rest⟩, after, same⟩ := Option.map_eq_some_iff.mp scans
      cases same
      obtain ⟨header, entry, rest⟩ := (turn_inside less).mp inside
      refine ⟨header, fun mads' reached below => ?_⟩
      rcases reached_cases reached with rfl | ⟨-, later⟩
      · exact ⟨advances, entry⟩
      · exact (ih after rest).2 mads' later below
    · have beyond := Nat.le_of_not_lt less
      rw [scan_beyond beyond] at scans
      cases scans
      refine ⟨inside ⟨4, 4⟩ (.head _), fun mads' reached below => ?_⟩
      rcases reached_cases reached with rfl | ⟨before, -⟩
      · exact absurd below less
      · exact absurd before less

/-- Over sound entries, every turn brings the loop closer to the end of the table. -/
theorem scan_of_sound (header : 8 ≤ tableEnd madt)
    (sound : ∀ mads', Reached madt mads mads' → mads' < tableEnd madt → Sound madt mads') :
    ∃ fuel s' fields, scan madt fuel mads s = some (s', fields) ∧ ∀ f ∈ fields, f.Inside madt := by
  induction left : tableEnd madt - mads using Nat.strongRecOn generalizing mads s with
  | ind n ih =>
    by_cases less : mads < tableEnd madt
    · obtain ⟨advances, entry⟩ := sound mads .here less
      have closer : tableEnd madt - next madt mads < n := by
        unfold next
        omega
      obtain ⟨fuel, s', fields, scans, inside⟩ := ih _ closer (s := (visit madt mads s).1)
        (fun mads' reached => sound mads' (reached_next less reached)) rfl
      refine ⟨fuel + 1, s', _, ?_, (turn_inside (s := s) less).mpr ⟨header, entry, inside⟩⟩
      rw [scan_inside less, scans]
      rfl
    · refine ⟨1, s, [⟨4, 4⟩], scan_beyond (Nat.le_of_not_lt less), fun f member => ?_⟩
      rw [List.mem_singleton.mp member]
      exact header

/-- The loop over the table ends without a look behind the table exactly if the table has room for its length
field and all entries on the way are sound. -/
theorem scan_iff (madt : Bytes) (s : State) :
    (∃ fuel s' fields, scan madt fuel first s = some (s', fields) ∧ ∀ f ∈ fields, f.Inside madt) ↔
      8 ≤ tableEnd madt ∧ ∀ mads, Reached madt first mads → mads < tableEnd madt → Sound madt mads :=
  ⟨fun ⟨_, _, _, scans, inside⟩ => sound_of_scan scans inside, fun ⟨header, sound⟩ => scan_of_sound header sound⟩

/-- A table with the right checksum, 46 bytes long, whose only entry has the length 0. -/
def emptyEntry : Bytes := fun i => [65, 80, 73, 67, 46, 0, 0, 0, 3, 178].getD i 0

theorem empty_entry_never_ends : (List.range 46).foldl (fun sum i => sum + emptyEntry i) 0 = 0 ∧
    tableEnd emptyEntry = 46 ∧ ∀ fuel s, scan emptyEntry fuel first s = none :=
  ⟨by decide, by decide, fun fuel _ => scan_stuck (by decide) (by decide) fuel⟩

end MPStuBS.APIC
