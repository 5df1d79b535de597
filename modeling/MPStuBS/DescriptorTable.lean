import MPStuBS.Descriptors
import Mathlib.Data.Nat.Bitwise
import Mathlib.Data.Finset.Card
import Mathlib.Order.Bounds.Defs

/-! The table of open files is a map from descriptors to files. Of every 64 descriptors only
the first 32 are handed out. -/
namespace MPStuBS.FdTable

/-- The bits of a word that stands for the open ones of 32 descriptors. The last of them
has all bits from 31 on. -/
def Marks (word : Nat) (marked : Nat → Prop) : Prop :=
  ∀ j, word.testBit j = true ↔ j < 64 ∧ marked (min j 31)

theorem testBit_bitmask (i j : Nat) : (bitmask i).testBit j = true ↔ j < 64 ∧ min j 31 = i % 32 := by
  have bound := Nat.mod_lt i (show 0 < 32 by decide)
  unfold bitmask
  split
  · rename_i last
    have shifted : 18446744071562067968 = (2 ^ 33 - 1) <<< 31 := by decide
    rw [shifted, Nat.testBit_shiftLeft, Nat.testBit_two_pow_sub_one, Bool.and_eq_true, decide_eq_true_eq,
      decide_eq_true_eq]
    omega
  · rw [Nat.testBit_two_pow, decide_eq_true_eq]
    omega

theorem bitmask_lt (i : Nat) : bitmask i < 2 ^ 64 := by
  have bound := Nat.mod_lt i (show 0 < 32 by decide)
  unfold bitmask
  split
  · decide
  · exact Nat.pow_lt_pow_right (by decide) (by omega)

section Words

variable {word : Nat} {marked : Nat → Prop}

theorem marks_zero : Marks 0 fun _ => False := by
  intro j
  simp

theorem Marks.congr {other : Nat → Prop} (marks : Marks word marked) (same : ∀ k < 32, marked k ↔ other k) :
    Marks word other := by
  intro j
  rw [marks j, same (min j 31) (by omega)]

theorem Marks.and_eq_zero (marks : Marks word marked) (i : Nat) : word &&& bitmask i = 0 ↔ ¬ marked (i % 32) := by
  have bound := Nat.mod_lt i (show 0 < 32 by decide)
  constructor
  · intro zero isMarked
    have bit := congrArg (Nat.testBit · (i % 32)) zero
    have own : (bitmask i).testBit (i % 32) = true := (testBit_bitmask i _).mpr (by omega)
    have set : word.testBit (i % 32) = true := (marks _).mpr ⟨by omega, by rwa [min_eq_left (by omega)]⟩
    simp [own, set] at bit
  · intro free
    refine Nat.eq_of_testBit_eq fun j => ?_
    rw [Nat.zero_testBit, Nat.testBit_and, Bool.eq_false_iff, Ne, Bool.and_eq_true, marks j, testBit_bitmask]
    rintro ⟨⟨-, isMarked⟩, -, here⟩
    exact free (here ▸ isMarked)

theorem Marks.or (marks : Marks word marked) (i : Nat) : Marks (word ||| bitmask i) fun k => k = i % 32 ∨ marked k := by
  intro j
  rw [Nat.testBit_or, Bool.or_eq_true, marks j, testBit_bitmask]
  tauto

theorem Marks.clear (marks : Marks word marked) (i : Nat) :
    Marks (word &&& (18446744073709551615 - bitmask i)) fun k => k ≠ i % 32 ∧ marked k := by
  intro j
  have others : (18446744073709551615 - bitmask i).testBit j = (decide (j < 64) && !(bitmask i).testBit j) := by
    have complement : 18446744073709551615 - bitmask i = 2 ^ 64 - (bitmask i + 1) := by omega
    rw [complement, Nat.testBit_two_pow_sub_succ (bitmask_lt i)]
  have mask := testBit_bitmask i j
  rw [Nat.testBit_and, Bool.and_eq_true, others, Bool.and_eq_true, decide_eq_true_eq, Bool.not_eq_true',
    Bool.eq_false_iff, Ne, mask, marks j]
  tauto

/-- The first mask that meets no bit belongs to the first descriptor that is not marked. -/
theorem Marks.firstFree (marks : Marks word marked) (n : Nat) : ∀ i, match firstFree word n i with
    | none => ∀ k, i ≤ k → k < i + n → marked (k % 32)
    | some k => i ≤ k ∧ ¬ marked (k % 32) ∧ ∀ j, i ≤ j → j < k → marked (j % 32) := by
  induction n with
  | zero => exact fun i k low high => absurd high (Nat.not_lt.mpr low)
  | succ n ih =>
    intro i
    by_cases zero : word &&& bitmask i = 0
    · simp only [FdTable.firstFree, if_pos zero]
      exact ⟨Nat.le_refl i, (marks.and_eq_zero i).mp zero, fun j low high => absurd high (Nat.not_lt.mpr low)⟩
    · have here : marked (i % 32) := by
        by_contra free
        exact zero ((marks.and_eq_zero i).mpr free)
      simp only [FdTable.firstFree, if_neg zero]
      have behind : ∀ j, i ≤ j → j ≠ i → i + 1 ≤ j := by omega
      have rest := ih (i + 1)
      cases found : FdTable.firstFree word n (i + 1) with
      | none =>
        rw [found] at rest
        intro k low high
        by_cases first : k = i
        · rwa [first]
        · exact rest k (behind k low first) (by omega)
      | some k =>
        rw [found] at rest
        refine ⟨by omega, rest.2.1, fun j low high => ?_⟩
        by_cases first : j = i
        · rwa [first]
        · exact rest.2.2 j (behind j low first) high

/-- The search in a word finds the first of the 32 descriptors that is not marked. -/
theorem Marks.search (marks : Marks word marked) : match FdTable.firstFree word 64 0 with
    | none => ∀ k < 32, marked k
    | some k => k < 32 ∧ ¬ marked k ∧ ∀ j < k, marked j := by
  have spec := marks.firstFree 64 0
  cases found : FdTable.firstFree word 64 0 with
  | none =>
    rw [found] at spec
    intro k less
    have here := spec k (Nat.zero_le k) (by omega)
    rwa [Nat.mod_eq_of_lt less] at here
  | some k =>
    rw [found] at spec
    obtain ⟨-, free, before⟩ := spec
    have small : k < 32 := by
      by_contra late
      exact free (Nat.mod_mod k 32 ▸ before (k % 32) (Nat.zero_le _) (by omega))
    rw [Nat.mod_eq_of_lt small] at free
    refine ⟨small, free, fun j less => ?_⟩
    have here := before j (Nat.zero_le j) less
    rwa [Nat.mod_eq_of_lt (by omega)] at here

end Words

/-- A descriptor that can be handed out. -/
def Assignable (fd : Nat) : Prop := fd < maxFiles ∧ fd % 64 < 32

/-- The table holds exactly the files of the map. -/
structure Represents (t : FdTable) (m : Nat → Option File) : Prop where
  words : ∀ n < 16, Marks (t.bitmap n) fun k => (m (64 * n + k)).isSome
  assignable : ∀ fd file, m fd = some file → Assignable fd
  named : ∀ fd file, m fd = some file → file.fd = fd
  buckets : ∀ b < tableSize, ∀ file, file ∈ t.table b ↔ file.fd % tableSize = b ∧ m file.fd = some file
  nodup : ∀ b < tableSize, ((t.table b).map File.fd).Nodup

theorem represents_empty : Represents empty fun _ => none :=
  ⟨fun _ _ => marks_zero.congr fun _ _ => by simp, by simp, by simp, fun _ _ _ => by simp [empty], fun _ _ => List.nodup_nil⟩

theorem find_of_mem {files : List File} {file : File} (nodup : (files.map File.fd).Nodup) (member : file ∈ files) :
    files.find? (fun other => other.fd == file.fd) = some file := by
  obtain ⟨before, after, rfl⟩ := List.append_of_mem member
  rw [List.map_append, List.map_cons, List.nodup_append] at nodup
  refine List.find?_eq_some_iff_append.mpr ⟨beq_self_eq_true _, before, after, rfl, fun other inside => ?_⟩
  simpa using nodup.2.2 _ (List.mem_map_of_mem inside) _ List.mem_cons_self

theorem absent_of_eraseP {files : List File} {file : File} {fd : Nat} (nodup : (files.map File.fd).Nodup)
    (member : file ∈ files.eraseP fun other => other.fd == fd) : file.fd ≠ fd := by
  intro same
  induction files with
  | nil => cases member
  | cons head rest ih =>
    rw [List.map_cons, List.nodup_cons] at nodup
    by_cases first : head.fd = fd
    · rw [List.eraseP_cons_of_pos (by simpa using first)] at member
      exact nodup.1 (first ▸ same ▸ List.mem_map_of_mem member)
    · rw [List.eraseP_cons_of_neg (by simpa using first), List.mem_cons] at member
      obtain rfl | inside := member
      · exact first same
      · exact ih nodup.2 inside

section Operations

variable {t t' : FdTable} {m : Nat → Option File} {file : File} {fd : Nat}

theorem bucket_lt (fd : Nat) : fd % tableSize < tableSize := Nat.mod_lt fd (by decide)

theorem Represents.getFile (is : Represents t m) (fd : Nat) : t.getFile fd = m fd := by
  have inside := bucket_lt fd
  unfold FdTable.getFile
  rw [if_neg (by omega), Int.toNat_natCast]
  cases known : m fd with
  | none =>
    refine List.find?_eq_none.mpr fun other member named => ?_
    have own := ((is.buckets _ inside other).mp member).2
    rw [beq_iff_eq.mp named, known] at own
    cases own
  | some file =>
    obtain rfl := is.named fd file known
    exact find_of_mem (is.nodup _ inside) ((is.buckets _ inside file).mpr ⟨rfl, known⟩)

theorem findFree_finds {bitmap : Nat → Nat} (words : ∀ n < 16, Marks (bitmap n) fun k => (m (64 * n + k)).isSome)
    (count : Nat) : ∀ n, n + count = 16 → match findFree bitmap count n with
    | none => ∀ fd, 64 * n ≤ fd → Assignable fd → (m fd).isSome
    | some (n', i) => n ≤ n' ∧ n' < 16 ∧ i < 32 ∧ m (64 * n' + i) = none ∧
        ∀ fd, 64 * n ≤ fd → fd < 64 * n' + i → Assignable fd → (m fd).isSome := by
  induction count with
  | zero =>
    rintro n whole fd low ⟨inside, -⟩
    have bound : fd < 1024 := inside
    omega
  | succ count ih =>
    intro n whole
    have search := (words n (by omega)).search
    have rest := ih (n + 1) (by omega)
    unfold findFree
    cases found : firstFree (bitmap n) 64 0 with
    | some i =>
      rw [found] at search
      obtain ⟨small, free, before⟩ := search
      refine ⟨Nat.le_refl n, by omega, small, by simpa using free, fun fd low high assignable => ?_⟩
      obtain ⟨j, rfl⟩ := Nat.exists_eq_add_of_le low
      exact before j (by omega)
    | none =>
      rw [found] at search
      have here : ∀ fd, 64 * n ≤ fd → fd < 64 * (n + 1) → Assignable fd → (m fd).isSome := by
        rintro fd low high ⟨-, lower⟩
        obtain ⟨j, rfl⟩ := Nat.exists_eq_add_of_le low
        exact search j (by omega)
      dsimp only
      cases later : findFree bitmap count (n + 1) with
      | none =>
        rw [later] at rest
        intro fd low assignable
        by_cases first : fd < 64 * (n + 1)
        · exact here fd low first assignable
        · exact rest fd (Nat.not_lt.mp first) assignable
      | some place =>
        rw [later] at rest
        obtain ⟨behind, inside, small, free, before⟩ := rest
        refine ⟨by omega, inside, small, free, fun fd low high assignable => ?_⟩
        by_cases first : fd < 64 * (n + 1)
        · exact here fd low first assignable
        · exact before fd (Nat.not_lt.mp first) high assignable

/-- The table is full exactly if all descriptors that can be handed out are open. -/
theorem Represents.insertFile_none (is : Represents t m) (full : t.insertFile file = none) :
    ∀ fd, Assignable fd → (m fd).isSome := by
  have found := findFree_finds is.words (maxFiles / 64) 0 (by decide)
  unfold insertFile at full
  cases search : findFree t.bitmap (maxFiles / 64) 0 with
  | some place =>
    rw [search] at full
    cases full
  | none =>
    rw [search] at found
    exact fun fd => found fd (Nat.zero_le _)

/-- A file gets the least descriptor that can be handed out and is not open. -/
theorem Represents.insertFile (is : Represents t m) (inserted : t.insertFile file = some (fd, t')) :
    Assignable fd ∧ m fd = none ∧ (∀ other < fd, Assignable other → (m other).isSome) ∧
      Represents t' (Function.update m fd (some { file with fd := fd })) := by
  have found := findFree_finds is.words (maxFiles / 64) 0 (by decide)
  unfold FdTable.insertFile at inserted
  cases search : findFree t.bitmap (maxFiles / 64) 0 with
  | none =>
    rw [search] at inserted
    cases inserted
  | some place =>
    obtain ⟨n, i⟩ := place
    rw [search] at found
    obtain ⟨-, inside, small, free, before⟩ := found
    simp only [search, Option.some.injEq, Prod.mk.injEq] at inserted
    obtain ⟨rfl, rfl⟩ := inserted
    have assignable : Assignable (64 * n + i) := ⟨by unfold maxFiles; omega, by omega⟩
    have bucket := bucket_lt (64 * n + i)
    refine ⟨assignable, free, fun other => before other (Nat.zero_le _), fun n' less => ?_, fun other file' known => ?_,
      fun other file' known => ?_, fun b less file' => ?_, fun b less => ?_⟩
    · dsimp only
      by_cases here : n' = n
      · subst here
        rw [Function.update_self]
        refine ((is.words n' less).or i).congr fun k low => ?_
        rw [Nat.mod_eq_of_lt small]
        by_cases same : k = i
        · simp [same]
        · simp [same]
      · rw [Function.update_of_ne here]
        refine (is.words n' less).congr fun k low => ?_
        rw [Function.update_of_ne (by omega)]
    · by_cases same : other = 64 * n + i
      · exact same ▸ assignable
      · exact is.assignable other file' (by rwa [Function.update_of_ne same] at known)
    · by_cases same : other = 64 * n + i
      · subst same
        rw [Function.update_self, Option.some.injEq] at known
        exact known ▸ rfl
      · exact is.named other file' (by rwa [Function.update_of_ne same] at known)
    · have old := is.buckets b less file'
      dsimp only
      by_cases same : file'.fd = 64 * n + i
      · rw [same, Function.update_self, Option.some.injEq]
        have absent : file' ∉ t.table b := fun member => by
          rw [old, same, free] at member
          cases member.2
        by_cases here : b = (64 * n + i) % tableSize
        · subst here
          rw [Function.update_self, List.mem_cons]
          simp only [absent, or_false, true_and]
          exact eq_comm
        · rw [Function.update_of_ne here]
          exact iff_of_false absent fun both => here both.1.symm
      · rw [Function.update_of_ne same, ← old]
        by_cases here : b = (64 * n + i) % tableSize
        · subst here
          rw [Function.update_self, List.mem_cons]
          refine or_iff_right fun eq => same ?_
          rw [eq]
        · rw [Function.update_of_ne here]
    · dsimp only
      by_cases here : b = (64 * n + i) % tableSize
      · subst here
        rw [Function.update_self, List.map_cons, List.nodup_cons]
        refine ⟨fun member => ?_, is.nodup _ less⟩
        obtain ⟨file', inBucket, named⟩ := List.mem_map.mp member
        have own := ((is.buckets _ less file').mp inBucket).2
        rw [named, free] at own
        cases own
      · rw [Function.update_of_ne here]
        exact is.nodup b less

theorem Represents.removeFile (is : Represents t m) (removed : t.removeFile fd = some (file, t')) :
    m fd = some file ∧ Represents t' (Function.update m fd none) := by
  unfold FdTable.removeFile at removed
  rw [is.getFile fd] at removed
  cases known : m fd with
  | none =>
    rw [known] at removed
    cases removed
  | some entry =>
    simp only [known, Option.some.injEq, Prod.mk.injEq] at removed
    obtain ⟨rfl, rfl⟩ := removed
    obtain rfl := is.named fd entry known
    have assignable := is.assignable _ _ known
    have keep : ∀ {other : Nat} {file : File}, Function.update m entry.fd none other = some file →
        other ≠ entry.fd ∧ m other = some file := by
      intro other file here
      by_cases same : other = entry.fd
      · rw [same, Function.update_self] at here
        cases here
      · exact ⟨same, by rwa [Function.update_of_ne same] at here⟩
    refine ⟨rfl, fun n less => ?_, fun other file here => is.assignable other file (keep here).2,
      fun other file here => is.named other file (keep here).2, fun b less file => ?_, fun b less => ?_⟩
    · dsimp only
      have lower : entry.fd % 64 < 32 := assignable.2
      by_cases here : n = entry.fd / 64
      · subst here
        rw [Function.update_self]
        refine ((is.words _ less).clear entry.fd).congr fun k low => ?_
        by_cases same : k = entry.fd % 32
        · simp [same, show 64 * (entry.fd / 64) + entry.fd % 32 = entry.fd by omega]
        · have apart : 64 * (entry.fd / 64) + k ≠ entry.fd := by omega
          simp [same, Function.update_of_ne apart]
      · rw [Function.update_of_ne here]
        refine (is.words n less).congr fun k low => ?_
        rw [Function.update_of_ne (by omega)]
    · dsimp only
      have old := is.buckets b less file
      by_cases here : b = entry.fd % tableSize
      · subst here
        rw [Function.update_self]
        constructor
        · intro member
          obtain ⟨bucket, own⟩ := old.mp (List.mem_of_mem_eraseP member)
          have apart : file.fd ≠ entry.fd := by
            intro same
            exact absent_of_eraseP (is.nodup _ less) member same
          exact ⟨bucket, by rwa [Function.update_of_ne apart]⟩
        · rintro ⟨bucket, own⟩
          obtain ⟨apart, own⟩ := keep own
          rw [List.mem_eraseP_of_neg (by simpa using apart)]
          exact old.mpr ⟨bucket, own⟩
      · rw [Function.update_of_ne here, old]
        refine and_congr_right fun bucket => ?_
        rw [Function.update_of_ne]
        rintro same
        exact here (bucket.symm.trans (by rw [same]))
    · dsimp only
      by_cases here : b = entry.fd % tableSize
      · subst here
        rw [Function.update_self]
        exact (is.nodup _ less).sublist (List.eraseP_sublist.map _)
      · rw [Function.update_of_ne here]
        exact is.nodup b less

/-- The position of a file changes, and nothing else. -/
theorem Represents.setPos (is : Represents t m) (fd : Nat) (pos : Int) :
    Represents (t.setPos fd pos) (Function.update m fd ((m fd).map fun file => { file with pos := pos })) := by
  set moved : File → File := fun file => if file.fd = fd then { file with pos := pos } else file with movedDef
  have name : ∀ file, (moved file).fd = file.fd := by
    intro file
    rw [movedDef]
    dsimp only
    split <;> rfl
  have known : ∀ n, Function.update m fd ((m fd).map fun file => { file with pos := pos }) n = (m n).map moved := by
    intro n
    by_cases here : n = fd
    · subst here
      rw [Function.update_self]
      refine Option.map_congr fun file found => ?_
      rw [movedDef]
      dsimp only
      rw [if_pos (is.named n file found)]
    · rw [Function.update_of_ne here]
      refine Option.map_id'.symm.trans (Option.map_congr fun file found => ?_)
      rw [movedDef]
      dsimp only
      rw [if_neg (by rwa [is.named n file found])]
  have table : ∀ b < tableSize, (t.setPos fd pos).table b = (t.table b).map moved := by
    intro b less
    unfold FdTable.setPos
    dsimp only
    by_cases here : b = fd % tableSize
    · rw [here, Function.update_self]
    · rw [Function.update_of_ne here]
      refine (List.map_id _).symm.trans (List.map_congr_left fun file member => ?_)
      rw [movedDef]
      dsimp only
      rw [if_neg fun same => here (by rw [← ((is.buckets b less file).mp member).1, same])]
      rfl
  refine ⟨fun n less => ?_, fun n file found => ?_, fun n file found => ?_, fun b less file => ?_, fun b less => ?_⟩
  · refine (is.words n less).congr fun k _ => ?_
    rw [known, Option.isSome_map]
  · rw [known, Option.map_eq_some_iff] at found
    obtain ⟨file, found, -⟩ := found
    exact is.assignable n file found
  · rw [known, Option.map_eq_some_iff] at found
    obtain ⟨file, found, rfl⟩ := found
    exact (name file).trans (is.named n file found)
  · rw [known, Option.map_eq_some_iff, table b less, List.mem_map]
    constructor
    · rintro ⟨file, member, rfl⟩
      rw [name]
      obtain ⟨bucket, found⟩ := (is.buckets b less file).mp member
      exact ⟨bucket, file, found, rfl⟩
    · rintro ⟨bucket, file, found, rfl⟩
      rw [name] at bucket found
      exact ⟨file, (is.buckets b less file).mpr ⟨bucket, found⟩, rfl⟩
  · rw [table b less, List.map_map, show File.fd ∘ moved = File.fd from funext name]
    exact is.nodup b less

/-- The same descriptors are open. -/
def SameOpen (t t' : FdTable) : Prop :=
  ∀ m, Represents t m → ∃ m', Represents t' m' ∧ ∀ fd, (m' fd).isSome = (m fd).isSome

theorem SameOpen.refl (t : FdTable) : t.SameOpen t := fun m is => ⟨m, is, fun _ => rfl⟩

theorem sameOpen_setPos (t : FdTable) (fd : Nat) (pos : Int) : t.SameOpen (t.setPos fd pos) := by
  refine fun m is => ⟨_, is.setPos fd pos, fun n => ?_⟩
  by_cases here : n = fd
  · subst here
    rw [Function.update_self, Option.isSome_map]
  · rw [Function.update_of_ne here]

end Operations

inductive Call where
  | insert (file : File)
  | remove (fd : Nat)
  | get (fd : Nat)

/-- What a call returned: the descriptor of an inserted file or a file. -/
inductive Answer where
  | descriptor (fd : Option Nat)
  | file (found : Option File)

def Call.run (t : FdTable) : Call → Answer × FdTable
  | .insert file =>
    match t.insertFile file with
    | none => (.descriptor none, t)
    | some (fd, t') => (.descriptor (some fd), t')
  | .remove fd =>
    match t.removeFile fd with
    | none => (.file none, t)
    | some (file, t') => (.file (some file), t')
  | .get fd => (.file (t.getFile fd), t)

/-- The table after the calls, and the calls with their answers. -/
def runCalls (t : FdTable) : List Call → List (Call × Answer) × FdTable
  | [] => ([], t)
  | call :: rest =>
    let (answer, next) := call.run t
    let (log, final) := runCalls next rest
    ((call, answer) :: log, final)

/-- The files that were inserted with a descriptor and not removed since. -/
def store (m : Nat → Option File) : Call × Answer → Nat → Option File
  | (.insert file, .descriptor (some fd)) => Function.update m fd (some { file with fd := fd })
  | (.remove fd, _) => Function.update m fd none
  | _ => m

def stored (log : List (Call × Answer)) : Nat → Option File := log.foldl store fun _ => none

def files (t : FdTable) : List File := (List.range tableSize).flatMap t.table

section Runs

variable {t t' : FdTable} {m : Nat → Option File}

theorem Represents.removeFile_none {fd : Nat} (is : Represents t m) (absent : t.removeFile fd = none) : m fd = none := by
  unfold FdTable.removeFile at absent
  rw [is.getFile fd] at absent
  cases known : m fd with
  | none => rfl
  | some entry => simp [known] at absent

theorem Represents.run (is : Represents t m) (call : Call) :
    Represents (call.run t).2 (store m (call, (call.run t).1)) := by
  cases call with
  | insert file =>
    cases inserted : t.insertFile file with
    | none =>
      simp only [Call.run, inserted, store]
      exact is
    | some both =>
      obtain ⟨fd, next⟩ := both
      simp only [Call.run, inserted, store]
      exact (is.insertFile inserted).2.2.2
  | remove fd =>
    cases removed : t.removeFile fd with
    | none =>
      simp only [Call.run, removed, store]
      rwa [← is.removeFile_none removed, Function.update_eq_self]
    | some both =>
      obtain ⟨file, next⟩ := both
      simp only [Call.run, removed, store]
      exact (is.removeFile removed).2
  | get fd => exact is

theorem Represents.runCalls (is : Represents t m) (calls : List Call) :
    Represents (runCalls t calls).2 ((runCalls t calls).1.foldl store m) := by
  induction calls generalizing t m with
  | nil => exact is
  | cons call rest ih => exact ih (is.run call)

theorem represents_stored (calls : List Call) :
    Represents (FdTable.runCalls empty calls).2 (stored (FdTable.runCalls empty calls).1) :=
  represents_empty.runCalls calls

theorem Represents.mem_files (is : Represents t m) (file : File) : file ∈ files t ↔ m file.fd = some file := by
  unfold files
  simp only [List.mem_flatMap, List.mem_range]
  constructor
  · rintro ⟨b, less, inside⟩
    exact ((is.buckets b less file).mp inside).2
  · intro known
    have less := bucket_lt file.fd
    exact ⟨_, less, (is.buckets _ less file).mpr ⟨rfl, known⟩⟩

theorem Represents.nodup_files (is : Represents t m) : ((files t).map File.fd).Nodup := by
  unfold files
  rw [List.map_flatMap, List.nodup_flatMap]
  refine ⟨fun b inside => is.nodup b (List.mem_range.mp inside), ?_⟩
  refine List.nodup_range.imp_of_mem fun {b b'} first second apart => ?_
  have place : ∀ b ∈ List.range tableSize, ∀ fd ∈ (t.table b).map File.fd, fd % tableSize = b := by
    intro b inside fd member
    obtain ⟨file, inBucket, rfl⟩ := List.mem_map.mp member
    exact ((is.buckets b (List.mem_range.mp inside) file).mp inBucket).1
  intro fd left right
  exact apart ((place b first fd left).symm.trans (place b' second fd right))

/-- Descriptor 32 is among the ones that are never handed out. -/
theorem Represents.length_files_lt (is : Represents t m) : (files t).length < maxFiles := by
  have inside : ((files t).map File.fd).toFinset ⊆ (Finset.range maxFiles).erase 32 := by
    intro fd member
    rw [List.mem_toFinset, List.mem_map] at member
    obtain ⟨file, inTable, rfl⟩ := member
    obtain ⟨less, lower⟩ := is.assignable _ file ((is.mem_files file).mp inTable)
    rw [Finset.mem_erase, Finset.mem_range]
    exact ⟨fun same => by simp [same] at lower, less⟩
  have count := Finset.card_le_card inside
  rw [List.toFinset_card_of_nodup is.nodup_files, List.length_map, Finset.card_erase_of_mem (Finset.mem_range.mpr (by decide)),
    Finset.card_range] at count
  exact Nat.lt_of_le_of_lt count (by decide)

end Runs

/-- Whatever was called, the table is the map of the files that are stored: the descriptors are
distinct, `get_file` finds exactly the stored file, `remove_file` takes exactly it out and clears
its bit, so that the next file finds a place, and `insert_file` only uses a descriptor without a
file and only fails if all descriptors that can be handed out are open. -/
theorem table_is_map (calls : List Call) :
    let (log, t) := runCalls empty calls
    ((files t).map File.fd).Nodup ∧
    (∀ fd : Nat, t.getFile fd = stored log fd) ∧
    (∀ fd : Nat, match t.removeFile fd with
      | none => stored log fd = none
      | some (file, t') => stored log fd = some file ∧
        (∀ other : Nat, t'.getFile other = if other = fd then none else stored log other) ∧
        t'.bitmap (fd / 64) &&& bitmask fd = 0 ∧ ∀ file, (t'.insertFile file).isSome) ∧
    ∀ file, match t.insertFile file with
      | none => ∀ fd, Assignable fd → (stored log fd).isSome
      | some (fd, t') => stored log fd = none ∧
        ∀ other : Nat, t'.getFile other = if other = fd then some { file with fd := fd } else stored log other := by
  have is := represents_stored calls
  generalize runCalls empty calls = final at is
  obtain ⟨log, t⟩ := final
  refine ⟨is.nodup_files, is.getFile, fun fd => ?_, fun file => ?_⟩
  · cases removed : t.removeFile fd with
    | none => exact is.removeFile_none removed
    | some both =>
      obtain ⟨file, t'⟩ := both
      obtain ⟨known, after⟩ := is.removeFile removed
      obtain ⟨inside, lower⟩ := is.assignable fd file known
      have word : fd / 64 < 16 := by
        unfold maxFiles at inside
        omega
      refine ⟨known, fun other => ?_, ?_, fun next => ?_⟩
      · rw [after.getFile other, Function.update_apply]
      · rw [(after.words _ word).and_eq_zero, show 64 * (fd / 64) + fd % 32 = fd by omega, Function.update_self]
        simp
      · rw [Option.isSome_iff_ne_none]
        intro full
        have still := after.insertFile_none full fd ⟨inside, lower⟩
        rw [Function.update_self] at still
        cases still
  · cases inserted : t.insertFile file with
    | none => exact is.insertFile_none inserted
    | some both =>
      obtain ⟨fd, t'⟩ := both
      obtain ⟨-, free, -, after⟩ := is.insertFile inserted
      refine ⟨free, fun other => ?_⟩
      rw [after.getFile other, Function.update_apply]

/-- Of two files the first one was removed: the other one is left, and the next file takes its place. -/
theorem table_is_map_of_removed :
    let t := (runCalls empty [.insert ⟨0, 1, 7, 0⟩, .insert ⟨0, 2, 9, 0⟩, .remove 0]).2
    (∀ fd : Nat, t.getFile fd = if fd = 1 then some ⟨1, 2, 9, 0⟩ else none) ∧
      (t.insertFile ⟨0, 1, 8, 0⟩).map Prod.fst = some 0 := by
  refine ⟨fun fd => ?_, by decide⟩
  refine ((table_is_map [.insert ⟨0, 1, 7, 0⟩, .insert ⟨0, 2, 9, 0⟩, .remove 0]).2.1 fd).trans ?_
  match fd with
  | 0 => rfl
  | 1 => rfl
  | fd + 2 => rfl

/-- The next file gets the least descriptor without a file, and there is none exactly if
`max_files` files are open. -/
def AssignsLeast (t : FdTable) : Prop :=
  ∀ file, match t.insertFile file with
    | none => (files t).length = maxFiles
    | some (fd, _) => (files t).length ≠ maxFiles ∧ IsLeast { fd | ∀ file ∈ files t, file.fd ≠ fd } fd

theorem Represents.free_iff {t : FdTable} {m : Nat → Option File} (is : Represents t m) (fd : Nat) :
    (∀ file ∈ files t, file.fd ≠ fd) ↔ m fd = none := by
  constructor
  · intro absent
    by_contra known
    obtain ⟨file, known⟩ := Option.ne_none_iff_exists'.mp known
    obtain rfl := is.named fd file known
    exact absent file ((is.mem_files file).mpr known) rfl
  · rintro unused file inside rfl
    rw [(is.mem_files file).mp inside] at unused
    cases unused

theorem Represents.least_iff {t : FdTable} {m : Nat → Option File} (is : Represents t m) :
    AssignsLeast t ↔ ∃ fd < 32, m fd = none := by
  have few := is.length_files_lt
  unfold AssignsLeast
  simp only [is.free_iff]
  constructor
  · intro least
    by_contra all
    have taken : ∀ fd < 32, m fd ≠ none := fun fd less unused => all ⟨fd, less, unused⟩
    have next := least ⟨0, 0, 0, 0⟩
    cases inserted : t.insertFile ⟨0, 0, 0, 0⟩ with
    | none =>
      rw [inserted] at next
      exact absurd next few.ne
    | some both =>
      obtain ⟨fd, t'⟩ := both
      rw [inserted] at next
      obtain ⟨-, unused, first⟩ := next
      have upper : m 32 = none := by
        by_contra known
        obtain ⟨file, known⟩ := Option.ne_none_iff_exists'.mp known
        exact absurd (is.assignable 32 file known).2 (by decide)
      have low : 32 ≤ fd := by
        by_contra less
        exact taken fd (Nat.not_le.mp less) unused
      obtain rfl := Nat.le_antisymm (first upper) low
      exact absurd (is.insertFile inserted).1.2 (by decide)
  · rintro ⟨k, less, unused⟩ file
    have assignable : ∀ fd < 32, Assignable fd := fun fd less => ⟨by unfold maxFiles; omega, by omega⟩
    cases inserted : t.insertFile file with
    | none =>
      have known := is.insertFile_none inserted k (assignable k less)
      rw [unused] at known
      cases known
    | some both =>
      obtain ⟨fd, t'⟩ := both
      obtain ⟨-, first, before, -⟩ := is.insertFile inserted
      have low : fd ≤ k := by
        by_contra late
        have known := before k (Nat.not_le.mp late) (assignable k less)
        rw [unused] at known
        cases known
      refine ⟨few.ne, first, fun other absent => ?_⟩
      by_contra late
      have known := before other (Nat.not_le.mp late) (assignable other (by omega))
      rw [show m other = none from absent] at known
      cases known

/-- After every sequence of calls the next descriptor is the least free one if and only if one of the first
32 is free: `1 << i` shifts an `int`, so that no descriptor with the bit 5 is ever handed out. -/
theorem assignsLeast_iff (calls : List Call) :
    AssignsLeast (runCalls empty calls).2 ↔ ∃ fd < 32, ∀ file ∈ files (runCalls empty calls).2, file.fd ≠ fd := by
  have is := represents_stored calls
  rw [is.least_iff]
  simp only [is.free_iff]

/-- The file after the first 32 gets the descriptor 64. -/
theorem insert_skips_half :
    let t := (runCalls empty ((List.range 32).map fun _ => .insert ⟨0, 0, 0, 0⟩)).2
    (t.insertFile ⟨0, 0, 0, 0⟩).map Prod.fst = some 64 ∧ ¬ AssignsLeast t := by
  intro t
  refine ⟨by decide, ?_⟩
  rw [(represents_stored _).least_iff]
  decide

end MPStuBS.FdTable
