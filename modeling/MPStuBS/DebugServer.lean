import MPStuBS.DebugPackets

/-! What the remote debugger is for: a server of the memory and the registers, and what its requests read and write. -/
namespace MPStuBS.DebugStub

inductive Request where
  | reason
  | read (addr : BitVec 64) (length : Nat)
  | write (addr : BitVec 64) (bytes : List UInt8) (binary : Bool)
  | registers
  | setRegisters (bytes : List UInt8)
  | register (n : Nat)
  | setRegister (n : Nat) (bytes : List UInt8)
  | core (letter : UInt8) (n : Nat)
  | alive (n : Nat)
  | other (letter : UInt8) (arguments : List UInt8)
  deriving DecidableEq

def bytesAt (memory : BitVec 64 → UInt8) (addr : BitVec 64) (length : Nat) : List UInt8 :=
  (List.range length).map fun pos => memory (addr + BitVec.ofNat 64 pos)

/-- The memory with other bytes from an address on. -/
def overwritten (memory : BitVec 64 → UInt8) (addr : BitVec 64) (bytes : List UInt8) (a : BitVec 64) : UInt8 :=
  bytes.getD (a - addr).toNat (memory a)

namespace Target

/-- The registers of a core with other bytes from an offset on. -/
def stored (t : Target) (core offset : Nat) (bytes : List UInt8) : Target :=
  { t with registers := fun c i =>
      if c = core ∧ offset ≤ i then bytes.getD (i - offset) (t.registers c i) else t.registers c i }

/-- The target after these bytes were written to a register. -/
def written (t : Target) (r : Register) (bytes : List UInt8) : Target :=
  if r.copied then t else t.stored r.core r.offset bytes

@[simp] theorem passed_cpuOps (t : Target) (r : Register) : (t.passed r).cpuOps = t.cpuOps := by
  unfold passed
  split <;> rfl

@[simp] theorem written_cpuOps (t : Target) (r : Register) (bytes : List UInt8) :
    (t.written r bytes).cpuOps = t.cpuOps := by
  unfold written
  split <;> rfl

/-- Where the register is that a command means. -/
def chosen (t : Target) (cores : Cores) (letter : UInt8) (reg : Nat) : Register :=
  ⟨cores.selected (t.cpuOps letter.toNat), (place reg).1, (place reg).2, copied reg⟩

/-- Every command is for a core that there can be. -/
def Ready (t : Target) (cores : Cores) : Prop := cores.id < coreMax ∧ ∀ i, t.cpuOps i ≤ coreMax

end Target

def ok : List UInt8 := [79, 75]

def error : List UInt8 := 69 :: hexOf [0]

namespace Request

def coded (bytes : List UInt8) (binary : Bool) : List UInt8 := if binary then escape bytes else hexOf bytes

def payload : Request → List UInt8
  | reason => [63]
  | read addr length => 109 :: (numeral 16 addr.toNat ++ 44 :: numeral 16 length)
  | write addr bytes binary => (if binary then 88 else 77) ::
      (numeral 16 addr.toNat ++ 44 :: (numeral 16 bytes.length ++ 58 :: coded bytes binary))
  | registers => [103]
  | setRegisters bytes => 71 :: hexOf bytes
  | register n => 112 :: numeral 16 n
  | setRegister n bytes => 80 :: (numeral 16 n ++ 61 :: hexOf bytes)
  | core letter n => 72 :: letter :: numeral 16 n
  | alive n => 84 :: numeral 16 n
  | other letter arguments => letter :: arguments

/-- The target after a request. -/
def effect (cores : Cores) (t : Target) : Request → Target
  | write addr bytes _ => if bytes.length ≤ dataSize then { t with memory := overwritten t.memory addr bytes } else t
  | setRegisters bytes =>
    let r := t.chosen cores 71 registerCount
    if bytes.length = r.size then t.written r bytes else t
  | register n => if n < registerCount then t.passed (t.chosen cores 112 n) else t
  | setRegister n bytes =>
    let r := t.chosen cores 80 n
    if n < registerCount ∧ bytes.length = r.size then t.written r bytes else t
  | core letter n =>
    if letter.toNat < cpuOpsSize then { t with cpuOps := Function.update t.cpuOps letter.toNat n } else t
  | _ => t

/-- What is answered. -/
def answer (cores : Cores) (t : Target) : Request → List UInt8
  | reason => 83 :: hexOf [0]
  | read addr length => if length ≤ dataSize then hexOf (bytesAt t.memory addr length) else error
  | write _ bytes _ => if bytes.length ≤ dataSize then ok else error
  | registers => hexOf (t.register (t.chosen cores 103 registerCount))
  | setRegisters bytes => if bytes.length = (t.chosen cores 71 registerCount).size then ok else error
  | register n => if n < registerCount then hexOf (t.register (t.chosen cores 112 n)) else error
  | setRegister n bytes => if n < registerCount ∧ bytes.length = (t.chosen cores 80 n).size then ok else error
  | core letter _ => if letter.toNat < cpuOpsSize then ok else error
  | alive n => if n ≤ cores.online then ok else error
  | other .. => []

/-- The letters of all commands. -/
def letters : List UInt8 := [72, 113, 103, 71, 112, 80, 84, 107, 109, 77, 88, 99, 115, 63]

/-- What fits into a packet, with numbers that fit into a word and cores that there can be. -/
def Sendable (r : Request) : Prop :=
  r.payload.length ≤ pktBufSize ∧
    match r with
    | read _ length => length < 2 ^ 64
    | register n => n < 2 ^ 64
    | setRegister n _ => n < 2 ^ 64
    | core letter n => letter ≠ 35 ∧ n ≤ coreMax
    | alive n => n < 2 ^ 64
    | other letter arguments => letter ∉ letters ∧ 35 ∉ letter :: arguments
    | _ => True

end Request

section Memory

variable {memory : BitVec 64 → UInt8} {addr : BitVec 64} {s : State} {pos : Nat} {bytes : List UInt8}

theorem dataSink_lawful : dataSink.Lawful where
  last pos c c' s := by
    unfold dataSink
    rw [Function.update_idem]
  pktBuf _ _ _ := rfl
  input _ _ _ := rfl
  output _ _ _ := rfl

theorem dataSink_putAll : ∀ (bytes : List UInt8) (pos : Nat) (s : State),
    ∃ data, dataSink.putAll pos bytes s = { s with data } ∧
      (∀ k (inside : k < bytes.length), data (pos + k) = bytes[k]) ∧ ∀ i < pos, data i = s.data i
  | [], _, s => ⟨s.data, rfl, fun _ inside => absurd inside (Nat.not_lt_zero _), fun _ _ => rfl⟩
  | c :: bytes, pos, s => by
    obtain ⟨data, put, stored, before⟩ := dataSink_putAll bytes (pos + 1) (dataSink pos c s)
    have first : data pos = c := by
      rw [before pos (Nat.lt_succ_self pos)]
      exact Function.update_self ..
    refine ⟨data, put, fun k inside => ?_, fun i small => ?_⟩
    · cases k with
      | zero => exact first
      | succ k =>
        have next := stored k (Nat.lt_of_succ_lt_succ inside)
        rw [Nat.add_assoc, Nat.add_comm 1] at next
        exact next
    · rw [before i (Nat.lt_succ_of_lt small)]
      exact Function.update_of_ne (Nat.ne_of_lt small) ..

theorem writeMemory_at (data : Nat → UInt8) (addr : BitVec 64) (a : BitVec 64) : ∀ (left pos : Nat) (memory : BitVec 64 → UInt8),
    pos + left ≤ 2 ^ 64 → writeMemory addr data pos left memory a =
      if pos ≤ (a - addr).toNat ∧ (a - addr).toNat < pos + left then data (a - addr).toNat else memory a := by
  intro left
  induction left with
  | zero =>
    intro pos memory _
    rw [if_neg (by omega)]
    rfl
  | succ left ih =>
    intro pos memory room
    rw [writeMemory, ih (pos + 1) _ (by omega)]
    by_cases here : (a - addr).toNat = pos
    · have place : a = addr + BitVec.ofNat 64 pos := by bv_omega
      rw [if_neg (by omega), if_pos (by omega), here, ← place]
      exact Function.update_self ..
    · have apart : a ≠ addr + BitVec.ofNat 64 pos := by
        rintro rfl
        exact here (by bv_omega)
      rw [Function.update_of_ne apart]
      refine if_congr (by omega) rfl rfl

theorem writeMemory_overwritten {data : Nat → UInt8} (stored : ∀ k (inside : k < bytes.length), data (0 + k) = bytes[k])
    (few : bytes.length ≤ dataSize) : writeMemory addr data 0 bytes.length memory = overwritten memory addr bytes := by
  unfold dataSize at few
  funext a
  rw [writeMemory_at data addr a _ 0 memory (by omega), Nat.zero_add]
  unfold overwritten
  by_cases inside : (a - addr).toNat < bytes.length
  · have at' := stored _ inside
    rw [Nat.zero_add] at at'
    rw [if_pos ⟨Nat.zero_le _, inside⟩, at', List.getD_eq_getElem?_getD, List.getElem?_eq_getElem inside, Option.getD_some]
  · rw [if_neg (fun both => inside both.2), List.getD_eq_getElem?_getD, List.getElem?_eq_none (Nat.le_of_not_lt inside),
      Option.getD_none]

theorem memWrite_ok (addr : BitVec 64) (binary : Bool) (holds : Holds s.pktBuf pos (Request.coded bytes binary)) (few : bytes.length ≤ dataSize) :
    ∃ data, memWrite pos (Request.coded bytes binary).length addr bytes.length (!binary) s = .ok (some ())
      { s with data, target := { s.target with memory := overwritten s.target.memory addr bytes } } := by
  obtain ⟨data, put, stored, -⟩ := dataSink_putAll bytes 0 s
  refine ⟨data, ?_⟩
  unfold memWrite
  rw [if_neg (Nat.not_lt.mpr few), ← writeMemory_overwritten stored few]
  cases binary with
  | false =>
    have decoded := @decodeHex_ok dataSink dataSink_lawful bytes pos s holds
    rw [put] at decoded
    exact (bind_ok decoded).trans rfl
  | true =>
    have decoded := @decodeBinary_ok dataSink dataSink_lawful bytes.length bytes pos 0 s holds (Nat.le_of_eq (Nat.zero_add _))
    rw [put] at decoded
    exact (bind_ok decoded).trans rfl

theorem memWrite_long (bufLen : Nat) {length : Nat} (hex : Bool) (long : dataSize < length) :
    memWrite pos bufLen addr length hex s = .ok none s := by
  unfold memWrite
  rw [if_pos long]
  rfl

theorem memRead_ok (s : State) (addr : BitVec 64) {length : Nat} (few : length ≤ dataSize) :
    ∃ buf, memRead addr length s = .ok (some (hexOf (bytesAt s.target.memory addr length)).length) { s with pktBuf := buf } ∧
      Holds buf 0 (hexOf (bytesAt s.target.memory addr length)) := by
  have count : (bytesAt s.target.memory addr length).length = length := by
    unfold bytesAt
    rw [List.length_map, List.length_range]
  obtain ⟨buf, encoded, holds, -⟩ := encodeHex_ok 0 pktBufSize (bytesAt s.target.memory addr length) s
    (by rw [count]; unfold dataSize at few; unfold pktBufSize; omega) (Nat.le_of_eq (Nat.zero_add _))
  refine ⟨buf, ?_, holds⟩
  unfold memRead
  rw [if_neg (Nat.not_lt.mpr few), length_hexOf]
  exact (bind_ok (get_ok s)).trans encoded

theorem memRead_long {length : Nat} (long : dataSize < length) : memRead addr length s = .ok none s := by
  unfold memRead
  rw [if_pos long]
  rfl

end Memory

theorem length_le_escape (bytes : List UInt8) : bytes.length ≤ (escape bytes).length := by
  induction bytes with
  | nil => exact Nat.le_refl 0
  | cons c bytes ih =>
    rw [escape_cons, List.length_append, List.length_cons]
    split
    · simp only [List.length_cons, List.length_nil]
      omega
    · simp only [List.length_cons, List.length_nil]
      omega

theorem length_le_coded (bytes : List UInt8) (binary : Bool) : bytes.length ≤ (Request.coded bytes binary).length := by
  cases binary with
  | false =>
    have length := length_hexOf bytes
    exact (Nat.le_mul_of_pos_right _ (by decide)).trans_eq length.symm
  | true => exact length_le_escape bytes

section Registers

variable {cores : Cores} {s : State} {t : Target} {buf : Nat} {bytes : List UInt8}

theorem Register.sink_lawful (r : Register) : r.sink.Lawful where
  last pos c c' s := by
    unfold Register.sink Target.put Target.setRegister
    split
    · rfl
    · dsimp only
      rw [Function.update_idem, Function.update_self, Function.update_idem]
  pktBuf _ _ _ := rfl
  input _ _ _ := rfl
  output _ _ _ := rfl

theorem Target.stored_nil (t : Target) (core offset : Nat) : t.stored core offset [] = t := by
  unfold Target.stored
  simp only [List.getD_nil, ite_self]

theorem Target.stored_cons (t : Target) (core offset : Nat) (c : UInt8) (bytes : List UInt8) :
    (t.setRegister core offset c).stored core (offset + 1) bytes = t.stored core offset (c :: bytes) := by
  unfold Target.stored Target.setRegister
  dsimp only
  congr 1
  funext core' i
  by_cases same : core' = core
  · subst same
    rw [Function.update_self]
    rcases Nat.lt_trichotomy i offset with before | rfl | behind
    · rw [if_neg (by omega), if_neg (by omega), Function.update_of_ne (by omega)]
    · rw [if_neg (by omega), if_pos ⟨rfl, Nat.le_refl _⟩, Function.update_self, Nat.sub_self, List.getD_cons_zero]
    · obtain ⟨k, rfl⟩ := Nat.exists_eq_add_of_lt behind
      rw [if_pos ⟨rfl, by omega⟩, if_pos ⟨rfl, by omega⟩, Function.update_of_ne (by omega),
        show offset + k + 1 - (offset + 1) = k by omega, show offset + k + 1 - offset = k + 1 by omega, List.getD_cons_succ]
  · rw [if_neg (fun both => same both.1), if_neg (fun both => same both.1), Function.update_of_ne same]

theorem Register.sink_putAll (r : Register) : ∀ (bytes : List UInt8) (pos : Nat) (s : State),
    r.sink.putAll pos bytes s =
      { s with target := if r.copied then s.target else s.target.stored r.core (r.offset + pos) bytes }
  | [], pos, s => by
    rw [Target.stored_nil, ite_self]
    rfl
  | c :: bytes, pos, s => by
    refine (Register.sink_putAll r bytes (pos + 1) (r.sink pos c s)).trans ?_
    unfold Register.sink Target.put
    dsimp only
    split
    · rfl
    · rw [← Target.stored_cons, Nat.add_assoc]

theorem place_size_le (reg : Nat) : (place reg).2 ≤ 536 := by
  unfold place
  repeat' split
  all_goals exact Nat.le_of_ble_eq_true rfl

theorem getRegister_ok (ready : t.Ready cores) (letter : UInt8) (reg : Nat) :
    getRegister cores reg (t.cpuOps letter.toNat) s = .ok (t.chosen cores letter reg) s := by
  have core : ¬ coreMax ≤ cores.selected (t.cpuOps letter.toNat) := by
    have few := ready.2 letter.toNat
    have this := ready.1
    unfold Cores.selected coreMax at *
    split <;> omega
  unfold getRegister
  rw [if_neg core]
  rfl

end Registers

end MPStuBS.DebugStub
