import MPStuBS.DebugState
import Mathlib.Logic.Function.Basic

/-! The remote debugger: `debug/gdb/protocol.cc`. The serial line is a list of bytes that come and a list of bytes
that were written; `read` blocks at its end. -/
namespace MPStuBS.DebugStub

/-- What else than a result there can be: a jump to `error`, or the end of this run. -/
inductive Stop where
  | error
  | waiting
  | assertion
  | outOfBounds
  | reboot
  | fuel
  deriving DecidableEq, Repr

/-- What the debugger works on: the memory, the stored registers of each core, the core for each command, and
what the reads from now on find where a copy of a register was. -/
structure Target where
  memory : BitVec 64 → UInt8
  registers : Nat → Nat → UInt8
  cpuOps : Nat → Int
  leftovers : Nat → Nat → UInt8

structure State where
  target : Target
  pktBuf : Nat → UInt8
  data : Nat → UInt8
  input : List UInt8
  output : List UInt8

/-- `Core::getID`, `Core::countOnline` and `APIC::getLAPICID`. -/
structure Cores where
  id : Nat
  online : Nat
  lapicId : Nat → Nat

def coreMax : Nat := 8
def pktBufSize : Nat := 2048
def dataSize : Nat := 512
def cpuOpsSize : Nat := 127
def registerCount : Nat := 57

abbrev Stub := EStateM Stop State

def halt {α : Type} (e : Stop) : Stub α := fun s => .error e s

section Line

def read : Stub UInt8 := fun s =>
  match s.input with
  | [] => .error .waiting s
  | c :: rest => .ok c { s with input := rest }

def write (c : UInt8) : Stub Unit := fun s => .ok () { s with output := s.output ++ [c] }

def load (i : Nat) : Stub UInt8 := fun s => if i < pktBufSize then .ok (s.pktBuf i) s else .error .outOfBounds s

def store (i : Nat) (c : UInt8) : Stub Unit := fun s =>
  if i < pktBufSize then .ok () { s with pktBuf := Function.update s.pktBuf i c } else .error .outOfBounds s

end Line

section Strings

def digits : List UInt8 := [48, 49, 50, 51, 52, 53, 54, 55, 56, 57, 97, 98, 99, 100, 101, 102]

def getDigit (val : Nat) : UInt8 := if val ≤ 0xf then digits.getD val 0 else 0xff

def getValue (digit : UInt8) (base : Nat) : Option Nat :=
  let value :=
    if 48 ≤ digit ∧ digit ≤ 57 then some (digit.toNat - 48)
    else if 97 ≤ digit ∧ digit ≤ 102 then some (digit.toNat - 97 + 0xa)
    else if 65 ≤ digit ∧ digit ≤ 70 then some (digit.toNat - 65 + 0xa)
    else none
  value.bind fun value => if value < base then some value else none

/-- The comparison of the packet with a string, from this position on. -/
def stringCompare : Nat → List UInt8 → Nat → Stub Bool
  | _, [], _ => pure true
  | i, c :: rest, len => do
    if (← load i) ≠ c then return false
    else if len = 1 then return true
    else if (← load (i + 1)) = 0 ∨ rest = [] then return true
    else stringCompare (i + 1) rest (len - 1)

/-- A copy of a string to this position of the packet. -/
def stringCopy (target : Nat) : Nat → List UInt8 → Stub Nat
  | 0, _ => pure 0
  | _ + 1, [] => do
    store target 0
    return 0
  | targetLen + 1, c :: rest => do
    if c = 0 then
      store target 0
      return 0
    else
      store target c
      return (← stringCopy (target + 1) targetLen rest) + 1

def stringConcat (target : Nat) : Nat → List UInt8 → Stub Nat
  | 0, _ => pure 0
  | targetLen + 1, source => do
    if (← load target) ≠ 0 then return (← stringConcat (target + 1) targetLen source) + 1
    else stringCopy target (targetLen + 1) source

/-- The loop of `stringToInteger`, with so many characters left: the value, whether there was a digit, and the
position behind the digits. -/
def digitLoop (base : Nat) : Nat → Nat → BitVec 64 → Bool → Stub (BitVec 64 × Bool × Nat)
  | 0, pos, value, valid => pure (value, valid, pos)
  | left + 1, pos, value, valid => do
    let c ← load pos
    if c = 0 then return (value, valid, pos)
    match getValue c base with
    | none => return (value, valid, pos)
    | some tmp => digitLoop base left (pos + 1) (value * BitVec.ofNat 64 base + BitVec.ofNat 64 tmp) true

/-- Whether the number begins with `0x`. -/
def hexPrefix (str pos len : Nat) : Stub Bool := do
  if pos + 2 < len then
    if (← load (str + pos)) = 48 then
      let x ← load (str + pos + 1)
      return x = 120 ∨ x = 88
    else return false
  else return false

def stringToInteger (str len base : Nat) : Stub (BitVec 64 × Option Nat) := do
  if len < 1 then return (0, none)
  let c ← load str
  let negative := c = 45
  let pos := if c = 45 ∨ c = 43 then 1 else 0
  let isHex ← hexPrefix str pos len
  let base := if isHex then 16 else base
  let pos := if isHex then pos + 2 else pos
  let base := if base = 0 then 10 else base
  let (value, valid, last) ← digitLoop base (len - pos) (str + pos) 0 false
  if valid then return (if negative then -value else value, some last)
  else return (0, none)

end Strings

section Codes

/-- Two digits for each byte, from this position of the packet on. -/
def storeHex (buf : Nat) : List UInt8 → Stub Unit
  | [] => pure ()
  | c :: rest => do
    store buf (getDigit (c.toNat / 16))
    store (buf + 1) (getDigit (c.toNat % 16))
    storeHex (buf + 2) rest

def encodeHex (buf bufLen : Nat) (data : List UInt8) : Stub (Option Nat) := do
  if bufLen < data.length * 2 then return none
  storeHex buf data
  return some (data.length * 2)

/-- Where decoded bytes are put. -/
abbrev Sink := Nat → UInt8 → State → State

def Sink.put (sink : Sink) (pos : Nat) (c : UInt8) : Stub Unit := fun s => .ok () (sink pos c s)

/-- What is no digit stops the system. -/
def loadHex (sink : Sink) (buf pos : Nat) : Nat → Stub Unit
  | 0 => pure ()
  | left + 1 => do
    match getValue (← load buf) 16 with
    | none => halt .assertion
    | some first =>
      sink.put pos (UInt8.ofNat (first * 16))
      match getValue (← load (buf + 1)) 16 with
      | none => halt .assertion
      | some second =>
        sink.put pos (UInt8.ofNat (first * 16 + second))
        loadHex sink (buf + 2) (pos + 1) left

def decodeHex (sink : Sink) (buf bufLen dataLen : Nat) : Stub (Option Unit) := do
  if bufLen ≠ dataLen * 2 then return none
  loadHex sink buf 0 dataLen
  return some ()

/-- With so many bytes left in the packet: how many there are then. -/
def decodeBinary (sink : Sink) (dataLen : Nat) : Nat → Nat → Nat → Stub Nat
  | _, 0, dataPos => pure dataPos
  | buf, left + 1, dataPos => do
    if dataLen ≤ dataPos then halt .assertion
    else
      let c ← load buf
      if c = 125 then
        match left with
        | 0 => halt .assertion
        | left + 1 =>
          sink.put dataPos ((← load (buf + 1)) ^^^ 0x20)
          decodeBinary sink dataLen (buf + 2) left (dataPos + 1)
      else
        sink.put dataPos c
        decodeBinary sink dataLen (buf + 1) left (dataPos + 1)

end Codes

section Packets

def checksum (data : List UInt8) : UInt8 := data.foldl (· + ·) 0

def receiveAck : Stub Unit := do
  let _ ← read

def writeString : List UInt8 → Stub Unit
  | [] => pure ()
  | c :: rest => do
    write c
    writeString rest

def sendData (data : List UInt8) : Stub Unit := do
  write 36
  writeString data
  let csum := checksum data
  writeString [35, getDigit (csum.toNat / 16), getDigit (csum.toNat % 16)]
  receiveAck

/-- The first bytes of the packet. -/
def State.packet (s : State) (len : Nat) : List UInt8 := (List.range len).map s.pktBuf

def sendPacket (len : Nat) : Stub Unit := do
  if pktBufSize < len then halt .outOfBounds
  sendData ((← get).packet len)

/-- What follows the next start of a packet. -/
def findStart : List UInt8 → Option (List UInt8)
  | [] => none
  | c :: rest => if c = 36 then some rest else findStart rest

/-- The bytes up to the end of the packet. -/
def receiveData : List UInt8 → Nat → Stub (Option Nat)
  | [], _ => fun s => .error .waiting { s with input := [] }
  | c :: rest, len => fun s =>
    if c = 35 then .ok (some len) { s with input := rest }
    else if pktBufSize ≤ len then .ok none { s with input := rest }
    else receiveData rest (len + 1) { s with pktBuf := Function.update s.pktBuf len c }

/-- The character `-1` is taken for an error. -/
def readDigit : Stub (Option UInt8) := do
  let c ← read
  return if c = 0xff then none else some c

/-- The length of the packet, if it is received as it was sent. -/
def receivePacket : Stub (Option Nat) := do
  match findStart (← get).input with
  | none => halt .waiting
  | some rest =>
    match ← receiveData rest 0 with
    | none => return none
    | some len =>
      match ← readDigit with
      | none => return none
      | some first =>
        match ← readDigit with
        | none => return none
        | some second =>
          match getValue first 16, getValue second 16 with
          | some high, some low =>
            if checksum ((← get).packet len) ≠ UInt8.ofNat (high * 16 + low) then
              write 45
              return none
            else
              write 43
              return some len
          | _, _ => halt .assertion

end Packets

section Memory

def memRead (addr : BitVec 64) (len : Nat) : Stub (Option Nat) := do
  if dataSize < len then return none
  let memory := (← get).target.memory
  encodeHex 0 pktBufSize ((List.range len).map fun pos => memory (addr + BitVec.ofNat 64 pos))

def dataSink : Sink := fun pos c s => { s with data := Function.update s.data pos c }

/-- The loop that writes to the memory. -/
def writeMemory (addr : BitVec 64) (data : Nat → UInt8) (pos : Nat) : Nat → (BitVec 64 → UInt8) → BitVec 64 → UInt8
  | 0, memory => memory
  | left + 1, memory =>
    writeMemory addr data (pos + 1) left (Function.update memory (addr + BitVec.ofNat 64 pos) (data pos))

def memWrite (buf bufLen : Nat) (addr : BitVec 64) (len : Nat) (hex : Bool) : Stub (Option Unit) := do
  if dataSize < len then return none
  let decoded ←
    if hex then decodeHex dataSink buf bufLen len
    else do
      let _ ← decodeBinary dataSink len buf bufLen 0
      pure (some ())
  match decoded with
  | none => return none
  | some () =>
    modify fun s => { s with
      target := { s.target with memory := writeMemory addr s.data 0 len s.target.memory } }
    return some ()

end Memory

section Registers

/-- The place of a register, or of all of them, among those of a core, or else of a copy of it that has
ended with `State::get`. -/
structure Register where
  core : Nat
  offset : Nat
  size : Nat
  copied : Bool

/-- Offset and size of a register, or of all of them. -/
def place (reg : Nat) : Nat × Nat :=
  if registerCount < reg then (0, 0)
  else if reg = registerCount then (0, 536)
  else if DebugState.offsetXmmStatus ≤ reg then (532 + (reg - DebugState.offsetXmmStatus) * 4, 4)
  else if DebugState.offsetXmmData ≤ reg then (276 + (reg - DebugState.offsetXmmData) * 16, 16)
  else if DebugState.offsetFpuStatus ≤ reg then (244 + (reg - DebugState.offsetFpuStatus) * 4, 4)
  else if DebugState.offsetFpuData ≤ reg then (164 + (reg - DebugState.offsetFpuData) * 10, 10)
  else if DebugState.offsetSegment ≤ reg then (136 + (reg - DebugState.offsetSegment) * 4, 4)
  else ((reg - DebugState.offsetGeneral) * 8, 8)

def copied (reg : Nat) : Bool := decide (reg < registerCount) && (DebugState.entry reg).isWord

/-- The core that is meant, where zero and less is this one. -/
def Cores.selected (cores : Cores) (core : Int) : Nat := if core ≤ 0 then cores.id else (core - 1).toNat

def getRegister (cores : Cores) (reg : Nat) (core : Int) : Stub Register := do
  if coreMax ≤ cores.selected core then halt .assertion
  else return ⟨cores.selected core, (place reg).1, (place reg).2, copied reg⟩

def Target.register (t : Target) (r : Register) : List UInt8 :=
  (List.range r.size).map fun pos =>
    if r.copied then t.leftovers 0 pos else t.registers r.core (r.offset + pos)

/-- The target after a register was read. -/
def Target.passed (t : Target) (r : Register) : Target :=
  if r.copied then { t with leftovers := fun n => t.leftovers (n + 1) } else t

def Target.setRegister (t : Target) (core offset : Nat) (c : UInt8) : Target :=
  { t with registers := Function.update t.registers core (Function.update (t.registers core) offset c) }

/-- A write to a copy that has ended changes no register. -/
def Target.put (t : Target) (r : Register) (pos : Nat) (c : UInt8) : Target :=
  if r.copied then t else t.setRegister r.core (r.offset + pos) c

def Register.sink (r : Register) : Sink := fun pos c s => { s with target := s.target.put r pos c }

/-- The bit for single steps is in the second byte of the flags, of which only a copy is changed. -/
def sysContinue (cores : Cores) : Stub Unit := do
  let r ← getRegister cores DebugState.offsetSegment 0
  modify fun s => { s with target := s.target.put r 1 ((s.target.register r).getD 1 0 &&& 0xfe) }

def sysStep (cores : Cores) : Stub Unit := do
  let r ← getRegister cores DebugState.offsetSegment 0
  modify fun s => { s with target := s.target.put r 1 ((s.target.register r).getD 1 0 ||| 1) }

end Registers

section Handle

/-- The number of a command, and the position behind it. -/
def expectInteger (pktLen ptr : Nat) : Stub (BitVec 64 × Nat) := do
  match ← stringToInteger ptr ((pktLen + 2 ^ 64 - ptr) % 2 ^ 64) 16 with
  | (_, none) => halt .error
  | (value, some next) => return (value, next)

def expectSeparator (ptr : Nat) (c : UInt8) : Stub Nat := do
  if (← load ptr) ≠ c then halt .error
  else return ptr + 1

def orError {α : Type} : Option α → Stub α
  | none => halt .error
  | some x => pure x

def sendOkPacket : Stub Unit := sendData [79, 75]

def sendCode (letter code : UInt8) : Stub Unit := do
  store 0 letter
  match ← encodeHex 1 (pktBufSize - 1) [code] with
  | none => pure ()
  | some size => sendPacket (1 + size)

def sendSignalPacket (signal : UInt8) : Stub Unit := sendCode 83 signal

def sendErrorPacket (error : UInt8) : Stub Unit := sendCode 69 error

/-- The low eight bits, with their sign. -/
def int8 (value : BitVec 64) : Int := (value.setWidth 8).toInt

def ofString (s : String) : List UInt8 := s.toList.map fun c => UInt8.ofNat c.toNat

def threadInfo (cores : Cores) : Nat → Nat → Stub Nat
  | 0, length => pure length
  | left + 1, _ => do
    let _ ← stringConcat 0 pktBufSize [44]
    let length ← stringConcat 0 pktBufSize [UInt8.ofNat (cores.online - 1 - left + 49)]
    threadInfo cores left length

/-- What is answered to a command that is not known. -/
def unsupported : Stub Bool := do
  sendData []
  return false

def query (cores : Cores) (pktLen : Nat) : Stub Bool := do
  store pktLen 0
  if ← stringCompare 0 (ofString "qC") pktLen then
    let _ ← stringCopy 0 pktBufSize (ofString "QC")
    let _ ← stringConcat 0 pktBufSize [UInt8.ofNat (49 + cores.id)]
    sendPacket 3
    return false
  else if ← stringCompare 0 (ofString "qfThreadInfo") pktLen then
    let length ← stringCopy 0 pktBufSize (ofString "m1")
    let length ← threadInfo cores (cores.online - 1) length
    sendPacket length
    return false
  else if ← stringCompare 0 (ofString "qsThreadInfo") pktLen then
    let _ ← stringCopy 0 pktBufSize (ofString "l")
    sendPacket 1
    return false
  else if ← stringCompare 0 (ofString "qThreadExtraInfo,") pktLen then
    let (addr, _) ← expectInteger pktLen 17
    if cores.online < addr.toNat then halt .error
    let _ ← stringCopy 0 pktBufSize (ofString "43657265233")
    let _ ← stringConcat 0 pktBufSize [UInt8.ofNat ((addr - 1).toNat + 48)]
    let _ ← stringConcat 0 pktBufSize (ofString "202f204c4150494320233")
    if coreMax ≤ (addr - 1).toNat % 256 then halt .assertion
    let length ← stringConcat 0 pktBufSize [UInt8.ofNat (cores.lapicId ((addr - 1).toNat % 256) + 48)]
    sendPacket length
    return false
  else unsupported

/-- `H`: the core for the commands with this letter. -/
def setCore (pktLen : Nat) : Stub Bool := do
  let op ← load 1
  if cpuOpsSize ≤ op.toNat then halt .error
  let (addr, _) ← expectInteger pktLen 2
  modify fun s => { s with
    target := { s.target with cpuOps := Function.update s.target.cpuOps op.toNat (int8 addr) } }
  sendOkPacket
  return false

/-- `g` and, for one of them, `p`. -/
def sendRegister (cores : Cores) (reg : Nat) (cpu : Int) : Stub Bool := do
  let r ← getRegister cores reg cpu
  let bytes := (← get).target.register r
  modify fun s => { s with target := s.target.passed r }
  let size ← orError (← encodeHex 0 pktBufSize bytes)
  sendPacket size
  return false

/-- `G` and, for one of them, `P`, with the value at this position. -/
def storeRegister (cores : Cores) (reg : Nat) (cpu : Int) (ptr len : Nat) : Stub Bool := do
  let r ← getRegister cores reg cpu
  orError (← decodeHex r.sink ptr len r.size)
  sendOkPacket
  return false

/-- `p`. -/
def readRegister (cores : Cores) (pktLen : Nat) (cpu : Int) : Stub Bool := do
  let (addr, _) ← expectInteger pktLen 1
  if registerCount ≤ addr.toNat then halt .error
  sendRegister cores addr.toNat cpu

/-- `P`. -/
def writeRegister (cores : Cores) (pktLen : Nat) (cpu : Int) : Stub Bool := do
  let (addr, ptr) ← expectInteger pktLen 1
  let ptr ← expectSeparator ptr 61
  if registerCount ≤ addr.toNat then halt .error
  storeRegister cores addr.toNat cpu ptr ((pktLen + 2 ^ 64 - ptr) % 2 ^ 64)

/-- `T`. -/
def threadAlive (cores : Cores) (pktLen : Nat) : Stub Bool := do
  let (addr, _) ← expectInteger pktLen 1
  if cores.online < addr.toNat then halt .error
  sendOkPacket
  return false

/-- `m`. -/
def readCommand (pktLen : Nat) : Stub Bool := do
  let (addr, ptr) ← expectInteger pktLen 1
  let ptr ← expectSeparator ptr 44
  let (length, _) ← expectInteger pktLen ptr
  let size ← orError (← memRead addr length.toNat)
  sendPacket size
  return false

/-- `M` and `X`. -/
def writeCommand (pktLen : Nat) (hex : Bool) : Stub Bool := do
  let (addr, ptr) ← expectInteger pktLen 1
  let ptr ← expectSeparator ptr 44
  let (length, ptr) ← expectInteger pktLen ptr
  let ptr ← expectSeparator ptr 58
  orError (← memWrite ptr ((pktLen + 2 ^ 64 - ptr) % 2 ^ 64) addr length.toNat hex)
  sendOkPacket
  return false

/-- `c` and `s`. -/
def resume (flags : Stub Unit) : Stub Bool := do
  flags
  return true

/-- `?`. -/
def reason : Stub Bool := do
  sendSignalPacket 0
  return false

/-- The command with this letter; whether the program goes on after it. -/
def dispatch (cores : Cores) (pktLen : Nat) (cpu : Int) (letter : UInt8) : Stub Bool :=
  if letter = 72 then setCore pktLen
  else if letter = 113 then query cores pktLen
  else if letter = 103 then sendRegister cores registerCount cpu
  else if letter = 71 then storeRegister cores registerCount cpu 1 (pktLen - 1)
  else if letter = 112 then readRegister cores pktLen cpu
  else if letter = 80 then writeRegister cores pktLen cpu
  else if letter = 84 then threadAlive cores pktLen
  else if letter = 107 then halt .reboot
  else if letter = 109 then readCommand pktLen
  else if letter = 77 then writeCommand pktLen true
  else if letter = 88 then writeCommand pktLen false
  else if letter = 99 then resume (sysContinue cores)
  else if letter = 115 then resume (sysStep cores)
  else if letter = 63 then reason
  else unsupported

def command (cores : Cores) (pktLen : Nat) : Stub Bool := do
  let letter ← load 0
  let cpuOps := (← get).target.cpuOps
  dispatch cores pktLen (cpuOps (if letter.toNat < cpuOpsSize then letter.toNat else 0)) letter

/-- A command, or the answer to one that is wrong. -/
def serve (cores : Cores) (pktLen : Nat) : Stub Bool := fun s =>
  match command cores pktLen s with
  | .error .error s => (do sendErrorPacket 0; return false : Stub Bool) s
  | result => result

/-- The loop of `handle`, for at most so many packets. -/
def serveAll (cores : Cores) : Nat → Stub Unit
  | 0 => halt .fuel
  | fuel + 1 => do
    match ← receivePacket with
    | none => return ()
    | some 0 => serveAll cores fuel
    | some pktLen =>
      if ← serve cores pktLen then return ()
      else serveAll cores fuel

def handle (cores : Cores) (fuel : Nat) : Stub Unit := do
  sendSignalPacket 0
  serveAll cores fuel

end Handle

end MPStuBS.DebugStub
