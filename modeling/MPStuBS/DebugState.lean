import Mathlib.Algebra.Group.Nat.Defs

/-! The registers that a debugger reads and writes: `debug/gdb/state.cc`. They are saved when an
interrupt is handled, and restored at its end. -/
namespace MPStuBS

structure DebugContext where
  gs : BitVec 16
  fs : BitVec 16
  r15 : BitVec 64
  r14 : BitVec 64
  r13 : BitVec 64
  r12 : BitVec 64
  r11 : BitVec 64
  r10 : BitVec 64
  r9 : BitVec 64
  r8 : BitVec 64
  rbp : BitVec 64
  rdi : BitVec 64
  rsi : BitVec 64
  rdx : BitVec 64
  rcx : BitVec 64
  rbx : BitVec 64
  rax : BitVec 64
  rip : BitVec 64
  cs : BitVec 16
  eflags : BitVec 32
  rsp : BitVec 64
  ss : BitVec 16
  deriving DecidableEq, Repr

/-- The memory of `fxsave`. -/
structure FPU.State where
  fcw : BitVec 16
  fsw : BitVec 16
  ftw : BitVec 8
  fop : BitVec 16
  ip_off : BitVec 32
  ip_seg : BitVec 32
  dp_off : BitVec 32
  dp_seg : BitVec 32
  mxcsr : BitVec 32
  st : Nat → BitVec 80
  xmm : Nat → BitVec 128

namespace DebugState

inductive RegisterNumber where
  | rax | rbx | rcx | rdx | rsi | rdi | rbp | rsp | r8 | r9 | r10 | r11 | r12 | r13 | r14 | r15 | rip
  | eflags | cs | ss | ds | es | fs | gs
  | st0 | st1 | st2 | st3 | st4 | st5 | st6 | st7
  | fctrl | fstat | ftag | fiseg | fioff | foseg | fooff | fop
  | xmm0 | xmm1 | xmm2 | xmm3 | xmm4 | xmm5 | xmm6 | xmm7
  | xmm8 | xmm9 | xmm10 | xmm11 | xmm12 | xmm13 | xmm14 | xmm15
  | mxcsr
  deriving DecidableEq, Repr

def RegisterNumber.number (r : RegisterNumber) : Nat := r.ctorIdx

def offsetGeneral : Nat := 0
def offsetSegment : Nat := RegisterNumber.eflags.number
def offsetFpuData : Nat := RegisterNumber.st0.number
def offsetFpuStatus : Nat := RegisterNumber.fctrl.number
def offsetXmmData : Nat := RegisterNumber.xmm0.number
def offsetXmmStatus : Nat := RegisterNumber.mxcsr.number

def sizeFpuData : Nat := offsetFpuStatus - offsetFpuData
def sizeXmmData : Nat := offsetXmmStatus - offsetXmmData

structure Registers where
  general : Nat → BitVec 64
  segment : Nat → BitVec 32
  fpuData : Nat → BitVec 80
  fpuStatus : Nat → BitVec 32
  xmmData : Nat → BitVec 128
  xmmStatus : Nat → BitVec 32

def assign {w : Nat} (i : Nat) (v : BitVec w) (a : Nat → BitVec w) : Nat → BitVec w := fun j => if j = i then v else a j

/-- A loop over the first elements of two arrays. -/
def copy {w : Nat} (n : Nat) (source : Nat → BitVec w) (a : Nat → BitVec w) : Nat → BitVec w :=
  fun j => if j < n then source j else a j

/-- An entry of one of the arrays. -/
inductive Place where
  | general (i : Nat)
  | segment (i : Nat)
  | fpuData (i : Nat)
  | fpuStatus (i : Nat)
  | xmmData (i : Nat)
  | xmmStatus (i : Nat)
  deriving DecidableEq, Repr

/-- The entry that `State::get` names for a single register. -/
def entry (reg : Nat) : Place :=
  if offsetXmmStatus ≤ reg then .xmmStatus (reg - offsetXmmStatus)
  else if offsetXmmData ≤ reg then .xmmData (reg - offsetXmmData)
  else if offsetFpuStatus ≤ reg then .fpuStatus (reg - offsetFpuStatus)
  else if offsetFpuData ≤ reg then .fpuData (reg - offsetFpuData)
  else if offsetSegment ≤ reg then .segment (reg - offsetSegment)
  else .general (reg - offsetGeneral)

/-- In the packed structure the words are not aligned, so that g++ binds a reference to a word to a copy of it. -/
def Place.isWord : Place → Bool
  | .fpuData _ | .xmmData _ => false
  | .general _ | .segment _ | .fpuStatus _ | .xmmStatus _ => true

def Registers.load (s : Registers) : Place → Nat
  | .general i => (s.general i).toNat
  | .segment i => (s.segment i).toNat
  | .fpuData i => (s.fpuData i).toNat
  | .fpuStatus i => (s.fpuStatus i).toNat
  | .xmmData i => (s.xmmData i).toNat
  | .xmmStatus i => (s.xmmStatus i).toNat

def Registers.store (s : Registers) (v : Nat) : Place → Registers
  | .general i => { s with general := assign i (.ofNat 64 v) s.general }
  | .segment i => { s with segment := assign i (.ofNat 32 v) s.segment }
  | .fpuData i => { s with fpuData := assign i (.ofNat 80 v) s.fpuData }
  | .fpuStatus i => { s with fpuStatus := assign i (.ofNat 32 v) s.fpuStatus }
  | .xmmData i => { s with xmmData := assign i (.ofNat 128 v) s.xmmData }
  | .xmmStatus i => { s with xmmStatus := assign i (.ofNat 32 v) s.xmmStatus }

/-- The context of the interrupt, the state of the unit itself, and what is stored for its core. -/
structure Machine (Hardware : Type) where
  context : DebugContext
  hardware : Hardware
  registers : Registers
  fpu : FPU.State

variable {Hardware : Type}

def read (r : RegisterNumber) (m : Machine Hardware) : Nat := m.registers.load (entry r.number)

def write (r : RegisterNumber) (v : Nat) (m : Machine Hardware) : Machine Hardware :=
  { m with registers := m.registers.store v (entry r.number) }

section Assignments

open RegisterNumber

def saveGeneral (context : DebugContext) (a : Nat → BitVec 64) : Nat → BitVec 64 :=
  let a := assign (rax.number - offsetGeneral) context.rax a
  let a := assign (rbx.number - offsetGeneral) context.rbx a
  let a := assign (rcx.number - offsetGeneral) context.rcx a
  let a := assign (rdx.number - offsetGeneral) context.rdx a
  let a := assign (rsi.number - offsetGeneral) context.rsi a
  let a := assign (rdi.number - offsetGeneral) context.rdi a
  let a := assign (rbp.number - offsetGeneral) context.rbp a
  let a := assign (rsp.number - offsetGeneral) context.rsp a
  let a := assign (r8.number - offsetGeneral) context.r8 a
  let a := assign (r9.number - offsetGeneral) context.r9 a
  let a := assign (r10.number - offsetGeneral) context.r10 a
  let a := assign (r11.number - offsetGeneral) context.r11 a
  let a := assign (r12.number - offsetGeneral) context.r12 a
  let a := assign (r13.number - offsetGeneral) context.r13 a
  let a := assign (r14.number - offsetGeneral) context.r14 a
  let a := assign (r15.number - offsetGeneral) context.r15 a
  let a := assign (rip.number - offsetGeneral) context.rip a
  a

def saveSegment (context : DebugContext) (a : Nat → BitVec 32) : Nat → BitVec 32 :=
  let a := assign (cs.number - offsetSegment) (context.cs.setWidth 32) a
  let a := assign (ss.number - offsetSegment) (context.ss.setWidth 32) a
  let a := assign (fs.number - offsetSegment) (context.fs.setWidth 32) a
  let a := assign (gs.number - offsetSegment) (context.gs.setWidth 32) a
  let a := assign (eflags.number - offsetSegment) context.eflags a
  a

/-- These assignments stand in `save` and in `restore`. -/
def copyFpuStatus (fpu : FPU.State) (a : Nat → BitVec 32) : Nat → BitVec 32 :=
  let a := assign (fctrl.number - offsetFpuStatus) (fpu.fcw.setWidth 32) a
  let a := assign (fstat.number - offsetFpuStatus) (fpu.fsw.setWidth 32) a
  let a := assign (ftag.number - offsetFpuStatus) (fpu.ftw.setWidth 32) a
  let a := assign (fiseg.number - offsetFpuStatus) fpu.ip_seg a
  let a := assign (fioff.number - offsetFpuStatus) fpu.ip_off a
  let a := assign (foseg.number - offsetFpuStatus) fpu.dp_seg a
  let a := assign (fooff.number - offsetFpuStatus) fpu.dp_off a
  let a := assign (fop.number - offsetFpuStatus) (fpu.fop.setWidth 32) a
  a

def restoreContext (registers : Registers) : DebugContext where
  rax := registers.general (rax.number - offsetGeneral)
  rbx := registers.general (rbx.number - offsetGeneral)
  rcx := registers.general (rcx.number - offsetGeneral)
  rdx := registers.general (rdx.number - offsetGeneral)
  rsi := registers.general (rsi.number - offsetGeneral)
  rdi := registers.general (rdi.number - offsetGeneral)
  rbp := registers.general (rbp.number - offsetGeneral)
  rsp := registers.general (rsp.number - offsetGeneral)
  r8 := registers.general (r8.number - offsetGeneral)
  r9 := registers.general (r9.number - offsetGeneral)
  r10 := registers.general (r10.number - offsetGeneral)
  r11 := registers.general (r11.number - offsetGeneral)
  r12 := registers.general (r12.number - offsetGeneral)
  r13 := registers.general (r13.number - offsetGeneral)
  r14 := registers.general (r14.number - offsetGeneral)
  r15 := registers.general (r15.number - offsetGeneral)
  rip := registers.general (rip.number - offsetGeneral)
  cs := (registers.segment (cs.number - offsetSegment)).setWidth 16
  ss := (registers.segment (ss.number - offsetSegment)).setWidth 16
  fs := (registers.segment (fs.number - offsetSegment)).setWidth 16
  gs := (registers.segment (gs.number - offsetSegment)).setWidth 16
  eflags := registers.segment (eflags.number - offsetSegment)

/-- `fxsave` is `FPU::save`. -/
def save (fxsave : Hardware → FPU.State) (m : Machine Hardware) : Machine Hardware :=
  let registers := m.registers
  let registers := { registers with general := saveGeneral m.context registers.general }
  let registers := { registers with segment := saveSegment m.context registers.segment }
  let fpu := fxsave m.hardware
  let registers := { registers with fpuData := copy sizeFpuData fpu.st registers.fpuData }
  let registers := { registers with fpuStatus := copyFpuStatus fpu registers.fpuStatus }
  let registers := { registers with xmmData := copy sizeXmmData fpu.xmm registers.xmmData }
  let registers := { registers with xmmStatus := assign (mxcsr.number - offsetXmmStatus) fpu.mxcsr registers.xmmStatus }
  { m with registers := registers, fpu := fpu }

/-- `fxrstor` is `FPU::restore`. -/
def restore (fxrstor : FPU.State → Hardware) (m : Machine Hardware) : Machine Hardware :=
  let registers := m.registers
  let fpu := m.fpu
  let context := restoreContext registers
  let fpu := { fpu with st := copy sizeFpuData registers.fpuData fpu.st }
  let registers := { registers with fpuStatus := copyFpuStatus fpu registers.fpuStatus }
  let fpu := { fpu with xmm := copy sizeXmmData registers.xmmData fpu.xmm }
  let fpu := { fpu with mxcsr := registers.xmmStatus (mxcsr.number - offsetXmmStatus) }
  ⟨context, fxrstor fpu, registers, fpu⟩

end Assignments

end DebugState
end MPStuBS
