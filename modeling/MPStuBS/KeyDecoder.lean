import MPStuBS.Keyboard
import Mathlib.Logic.Function.Basic

/-! The decoder of the bytes of the keyboard: `KeyDecoder::decode` of `machine/keydecoder.cc`, the characters of
`object/key.cc`, and the LEDs of `machine/ps2controller.cc`. -/
namespace MPStuBS

namespace Scancode

def leftCtrl : Nat := 29
def leftShift : Nat := 42
def rightShift : Nat := 54
def leftAlt : Nat := 56
def capsLock : Nat := 58
def numLock : Nat := 69
def scrollLock : Nat := 70
def slash : Nat := 53
def div : Nat := 8
def keys : Nat := 89

end Scancode

namespace Key

/-- The characters of a key: normally, with shift, and with alt. -/
def asciiTab : List (Nat × Nat × Nat) := [
  (0, 0, 0), (0, 0, 0), (49, 33, 0), (50, 34, 253), (51, 21, 0), (52, 36, 0), (53, 37, 0), (54, 38, 0),
  (55, 47, 123), (56, 40, 91), (57, 41, 93), (48, 61, 125), (225, 63, 92), (39, 96, 0), (8, 0, 0), (0, 0, 0),
  (113, 81, 64), (119, 87, 0), (101, 69, 0), (114, 82, 0), (116, 84, 0), (122, 90, 0), (117, 85, 0), (105, 73, 0),
  (111, 79, 0), (112, 80, 0), (129, 154, 0), (43, 42, 126), (10, 0, 0), (0, 0, 0), (97, 65, 0), (115, 83, 0),
  (100, 68, 0), (102, 70, 0), (103, 71, 0), (104, 72, 0), (106, 74, 0), (107, 75, 0), (108, 76, 0), (148, 153, 0),
  (132, 142, 0), (94, 248, 0), (0, 0, 0), (35, 39, 0), (121, 89, 0), (120, 88, 0), (99, 67, 0), (118, 86, 0),
  (98, 66, 0), (110, 78, 0), (109, 77, 230), (44, 59, 0), (46, 58, 0), (45, 95, 0), (0, 0, 0), (42, 42, 0),
  (0, 0, 0), (32, 32, 0), (0, 0, 0), (0, 0, 0), (0, 0, 0), (0, 0, 0), (0, 0, 0), (0, 0, 0), (0, 0, 0), (0, 0, 0),
  (0, 0, 0), (0, 0, 0), (0, 0, 0), (0, 0, 0), (0, 0, 0), (0, 55, 0), (0, 56, 0), (0, 57, 0), (45, 45, 0),
  (0, 52, 0), (0, 53, 0), (0, 54, 0), (43, 43, 0), (0, 49, 0), (0, 50, 0), (0, 51, 0), (0, 48, 0), (127, 44, 0),
  (0, 0, 0), (0, 0, 0), (60, 62, 124), (0, 0, 0), (0, 0, 0)]

variable (k : Key)

def valid : Bool := k.scancode ≠ 0 ∧ k.scancode.toNat < Scancode.keys

/-- The keys from Q to P, from A to L, and from Z to M. -/
def isLetter (scancode : Nat) : Bool :=
  16 ≤ scancode ∧ scancode ≤ 25 ∨ 30 ≤ scancode ∧ scancode ≤ 38 ∨ 44 ≤ scancode ∧ scancode ≤ 50

def isKeypad (scancode : Nat) : Bool := 71 ≤ scancode ∧ scancode ≤ 83

def ascii : Nat :=
  let entry := asciiTab.getD k.scancode.toNat (0, 0, 0)
  if ¬ k.valid then 0
  else if k.shift || k.capsLock && isLetter k.scancode.toNat || k.numLock && isKeypad k.scancode.toNat then entry.2.1
  else if k.alt then entry.2.2
  else entry.1

end Key

namespace PS2Controller

def ledScrollLock : UInt8 := 1
def ledNumLock : UInt8 := 2
def ledCapsLock : UInt8 := 4

def hasOutput : UInt8 := 1
def isMouse : UInt8 := 0x20

def keyboardSetLed : UInt8 := 0xed
def keyboardSetSpeed : UInt8 := 0xf3

end PS2Controller

/-- Beside the decoder, the LEDs of the controller and what was sent to the keyboard. -/
structure KeyDecoder where
  prefixCode : UInt8
  modifier : Key
  status : Nat → Bool
  leds : UInt8
  sent : List UInt8

namespace KeyDecoder

def breakBit : UInt8 := 0x80
def prefix1 : UInt8 := 0xe0
def prefix2 : UInt8 := 0xe1

variable (d : KeyDecoder)

def sendData (value : UInt8) : KeyDecoder := { d with sent := d.sent ++ [value] }

def setLed (led : UInt8) (on : Bool) : KeyDecoder :=
  let d := d.sendData PS2Controller.keyboardSetLed
  let d := { d with leds := if on then d.leds ||| led else d.leds &&& ~~~led }
  d.sendData d.leds

def setRepeatRate (speed delay : UInt8) : KeyDecoder :=
  (d.sendData PS2Controller.keyboardSetSpeed).sendData (delay <<< 5 ||| speed)

/-- `PS2Controller::init`, at the start of the system. -/
def start : KeyDecoder :=
  let d : KeyDecoder := ⟨0, .invalid, fun _ => false, 0, []⟩
  let d := d.setLed PS2Controller.ledCapsLock false
  let d := d.setLed PS2Controller.ledScrollLock false
  let d := d.setLed PS2Controller.ledNumLock false
  d.setRepeatRate 0 0

/-- What a modifier key changes, if it is one. -/
def modify (m : Key) (scancode : Nat) (prefixed pressed : Bool) : Option Key :=
  if scancode = Scancode.leftShift ∨ scancode = Scancode.rightShift then some { m with shift := pressed }
  else if scancode = Scancode.leftAlt then
    some (if prefixed then { m with altRight := pressed } else { m with altLeft := pressed })
  else if scancode = Scancode.leftCtrl then
    some (if prefixed then { m with ctrlRight := pressed } else { m with ctrlLeft := pressed })
  else none

/-- Another key is pressed; `key` has the modifiers. -/
def press (key : Key) (scancode : Nat) (prefixed : Bool) : Key × KeyDecoder :=
  if scancode = Scancode.capsLock then
    let d := { d with modifier.capsLock := !d.modifier.capsLock }
    (key, d.setLed PS2Controller.ledCapsLock d.modifier.capsLock)
  else if scancode = Scancode.scrollLock then
    let d := { d with modifier.scrollLock := !d.modifier.scrollLock }
    (key, d.setLed PS2Controller.ledScrollLock d.modifier.scrollLock)
  else if scancode = Scancode.numLock then
    if d.modifier.ctrlLeft then ({ key with scancode := .ofNat scancode }, d)
    else
      let d := { d with modifier.numLock := !d.modifier.numLock }
      (key, d.setLed PS2Controller.ledNumLock d.modifier.numLock)
  else if scancode = Scancode.slash then
    if prefixed then ({ key with scancode := .ofNat Scancode.div, shift := true }, d)
    else ({ key with scancode := .ofNat scancode }, d)
  else if d.modifier.numLock ∧ prefixed then ({ key with scancode := .ofNat scancode, numLock := false }, d)
  else ({ key with scancode := .ofNat scancode }, d)

def decode (code : UInt8) : Key × KeyDecoder :=
  let key := d.modifier
  if code = prefix1 ∨ code = prefix2 then (key, { d with prefixCode := code })
  else
    let pressed : Bool := code &&& breakBit = 0
    let scancode := (code &&& ~~~breakBit).toNat
    let prefixed : Bool := d.prefixCode = prefix1
    let (key, d) :=
      if scancode < Scancode.keys then
        let d := { d with status := Function.update d.status scancode pressed }
        match modify d.modifier scancode prefixed pressed with
        | some modifier => (key, { d with modifier })
        | none => if pressed then d.press key scancode prefixed else (key, d)
      else (key, d)
    (key, { d with prefixCode := 0 })

/-- `PS2Controller::fetch`, where the controller has this status and then this byte. -/
def fetch (pressed : Key) (status code : UInt8) : Bool × Key × KeyDecoder :=
  if status &&& PS2Controller.hasOutput ≠ PS2Controller.hasOutput then (false, pressed, d)
  else if status &&& PS2Controller.isMouse = PS2Controller.isMouse then (false, pressed, d)
  else
    let (pressed, d) := d.decode code
    (pressed.valid, pressed, d)

/-- Fetch after fetch, with the characters of the keys that were fetched. -/
def poll : List (UInt8 × UInt8) → KeyDecoder × List Nat
  | [] => (start, [])
  | (status, code) :: past =>
    let (d, chars) := poll past
    let (fetched, pressed, d) := d.fetch .invalid status code
    (d, if fetched then chars ++ [pressed.ascii] else chars)

end KeyDecoder

end MPStuBS
