import MPStuBS.KeyDecoder
import Mathlib.Algebra.Group.Nat.Even

/-! What the decoder knows after any bytes of the keyboard: which keys are held, how often the locks were toggled,
and that the LEDs show it. A history begins with the latest event. -/
namespace MPStuBS

structure KeyEvent where
  prefixed : Bool
  scancode : Nat
  pressed : Bool
  deriving DecidableEq, Repr

namespace KeyEvent

def isShift (e : KeyEvent) : Bool := e.scancode = Scancode.leftShift ∨ e.scancode = Scancode.rightShift
def isAlt (prefixed : Bool) (e : KeyEvent) : Bool := e.scancode = Scancode.leftAlt ∧ e.prefixed = prefixed
def isCtrl (prefixed : Bool) (e : KeyEvent) : Bool := e.scancode = Scancode.leftCtrl ∧ e.prefixed = prefixed

end KeyEvent

section Histories

/-- A key is held, or one of several that count as the same, if the last event of it was that it was pressed. -/
def held (is : KeyEvent → Bool) : List KeyEvent → Bool
  | [] => false
  | e :: past => if is e then e.pressed else held is past

def presses (scancode : Nat) (history : List KeyEvent) : Nat := history.countP fun e => e.pressed && e.scancode == scancode

/-- Together with the left control key the key is the pause key. -/
def numLocks : List KeyEvent → Nat
  | [] => 0
  | e :: past => numLocks past +
    if e.pressed && e.scancode == Scancode.numLock && !held (KeyEvent.isCtrl false) past then 1 else 0

def odd (n : Nat) : Bool := n % 2 = 1

def modifiersOf (history : List KeyEvent) : Key where
  scancode := 0
  shift := held KeyEvent.isShift history
  altLeft := held (KeyEvent.isAlt false) history
  altRight := held (KeyEvent.isAlt true) history
  ctrlLeft := held (KeyEvent.isCtrl false) history
  ctrlRight := held (KeyEvent.isCtrl true) history
  capsLock := odd (presses Scancode.capsLock history)
  numLock := odd (numLocks history)
  scrollLock := odd (presses Scancode.scrollLock history)

/-- The LEDs for the locks. -/
def ledBits (scroll num caps : Bool) : UInt8 :=
  (if scroll then 1 else 0) + (if num then 2 else 0) + if caps then 4 else 0

def ledsOf (m : Key) : UInt8 := ledBits m.scrollLock m.numLock m.capsLock

/-- The bytes so far: a prefix that waits for its code, and the events. -/
structure KeyInput where
  pending : UInt8
  history : List KeyEvent

def KeyInput.next (i : KeyInput) (code : UInt8) : KeyInput :=
  if code = 0xe0 ∨ code = 0xe1 then { i with pending := code }
  else ⟨0, ⟨i.pending = 0xe0, code.toNat % 128, code < 128⟩ :: i.history⟩

/-- What was polled so far, the latest first; bytes of the mouse are not for the decoder. -/
def keyInput : List (UInt8 × UInt8) → KeyInput
  | [] => ⟨0, []⟩
  | (status, code) :: past =>
    if status.toNat.testBit 0 ∧ ¬ status.toNat.testBit 5 then (keyInput past).next code else keyInput past

def KeyEvent.isModifier (e : KeyEvent) : Bool := e.scancode = Scancode.leftShift ∨ e.scancode = Scancode.rightShift ∨
  e.scancode = Scancode.leftAlt ∨ e.scancode = Scancode.leftCtrl

/-- The event is the press of a key that is neither a modifier nor a lock. -/
def types (e : KeyEvent) (past : List KeyEvent) : Bool :=
  e.pressed ∧ 0 < e.scancode ∧ e.scancode < Scancode.keys ∧ ¬ e.isModifier ∧ e.scancode ≠ Scancode.capsLock ∧
    e.scancode ≠ Scancode.scrollLock ∧ (e.scancode = Scancode.numLock → held (KeyEvent.isCtrl false) past)

/-- The character of the key; the caps lock is for letters, the number lock for the number block. -/
def typed (e : KeyEvent) (past : List KeyEvent) : Nat :=
  let chars := Key.asciiTab.getD e.scancode (0, 0, 0)
  if e.scancode = Scancode.slash ∧ e.prefixed then 47
  else if held KeyEvent.isShift past ∨ odd (presses Scancode.capsLock past) ∧ Key.isLetter e.scancode ∨
      odd (numLocks past) ∧ Key.isKeypad e.scancode ∧ ¬ e.prefixed then chars.2.1
  else if held (KeyEvent.isAlt false) past ∨ held (KeyEvent.isAlt true) past then chars.2.2
  else chars.1

def text : List KeyEvent → List Nat
  | [] => []
  | e :: past => if types e past then text past ++ [typed e past] else text past

/-- The LEDs of a keyboard that was sent these commands, each with its parameter. -/
def shownLeds : List UInt8 → UInt8 → UInt8
  | command :: parameter :: rest, leds => shownLeds rest (if command = PS2Controller.keyboardSetLed then parameter else leds)
  | _, leds => leds

end Histories

theorem Key.ascii_eq {k : Key} (valid : k.valid) : k.ascii =
    let chars := Key.asciiTab.getD k.scancode.toNat (0, 0, 0)
    if k.shift ∨ k.capsLock ∧ isLetter k.scancode.toNat ∨ k.numLock ∧ isKeypad k.scancode.toNat then chars.2.1
    else if k.altLeft ∨ k.altRight then chars.2.2
    else chars.1 := by
  unfold ascii
  dsimp only
  rw [if_neg (not_not_intro valid)]
  simp only [Bool.or_eq_true, Bool.and_eq_true, or_assoc, Key.alt]

namespace KeyDecoder

section Leds

theorem shownLeds_append (command parameter : UInt8) : ∀ (sent : List UInt8) (leds : UInt8), sent.length % 2 = 0 →
    shownLeds (sent ++ [command, parameter]) leds =
      if command = PS2Controller.keyboardSetLed then parameter else shownLeds sent leds
  | [], _, _ => rfl
  | [_], _, odd => absurd odd (by simp)
  | a :: b :: rest, leds, even => by
    have even' : rest.length % 2 = 0 := by
      rw [List.length_cons, List.length_cons] at even
      omega
    exact shownLeds_append command parameter rest _ even'

/-- The LEDs show the locks, and the keyboard was told so. -/
structure Lit (d : KeyDecoder) (m : Key) : Prop where
  leds : d.leds = ledsOf m
  commands : d.sent.length % 2 = 0
  shown : ∀ leds, shownLeds d.sent leds = d.leds

variable {d : KeyDecoder} {m : Key}

theorem Lit.congr {d' : KeyDecoder} (lit : Lit d m) (leds : d'.leds = d.leds) (sent : d'.sent = d.sent) : Lit d' m :=
  ⟨leds.trans lit.leds, sent ▸ lit.commands, fun l => by rw [sent, leds, lit.shown]⟩

theorem Lit.setLed {m' : Key} (lit : Lit d m) (led : UInt8) (on : Bool)
    (changed : ledsOf m' = if on then ledsOf m ||| led else ledsOf m &&& ~~~led) : Lit (d.setLed led on) m' := by
  have sent : (d.setLed led on).sent = d.sent ++ [PS2Controller.keyboardSetLed, (d.setLed led on).leds] := by
    simp [KeyDecoder.setLed, sendData]
  refine ⟨?_, ?_, fun leds => ?_⟩
  · rw [changed, ← lit.leds]
    rfl
  · rw [sent, List.length_append, List.length_cons, List.length_cons, List.length_nil]
    have := lit.commands
    omega
  · rw [sent, shownLeds_append _ _ _ _ lit.commands, if_pos rfl]

/-- A lock that is toggled sets or clears its own bit. -/
theorem ledBits_toggle : ∀ scroll num caps,
    (ledBits scroll num (!caps) = if !caps then ledBits scroll num caps ||| PS2Controller.ledCapsLock
      else ledBits scroll num caps &&& ~~~PS2Controller.ledCapsLock) ∧
    (ledBits (!scroll) num caps = if !scroll then ledBits scroll num caps ||| PS2Controller.ledScrollLock
      else ledBits scroll num caps &&& ~~~PS2Controller.ledScrollLock) ∧
    (ledBits scroll (!num) caps = if !num then ledBits scroll num caps ||| PS2Controller.ledNumLock
      else ledBits scroll num caps &&& ~~~PS2Controller.ledNumLock) := by
  decide

theorem Lit.capsLock (lit : Lit d m) :
    Lit (d.setLed PS2Controller.ledCapsLock !m.capsLock) { m with capsLock := !m.capsLock } :=
  lit.setLed _ _ (ledBits_toggle _ _ _).1

theorem Lit.scrollLock (lit : Lit d m) :
    Lit (d.setLed PS2Controller.ledScrollLock !m.scrollLock) { m with scrollLock := !m.scrollLock } :=
  lit.setLed _ _ (ledBits_toggle _ _ _).2.1

theorem Lit.numLock (lit : Lit d m) :
    Lit (d.setLed PS2Controller.ledNumLock !m.numLock) { m with numLock := !m.numLock } :=
  lit.setLed _ _ (ledBits_toggle _ _ _).2.2

end Leds

section Events

set_option maxRecDepth 4000 in
theorem pressed_iff (code : UInt8) : code &&& breakBit = 0 ↔ code < 128 := by
  have every : ∀ i : Fin 256, UInt8.ofNat i &&& breakBit = 0 ↔ UInt8.ofNat i < 128 := by decide
  simpa using every ⟨code.toNat, code.toNat_lt⟩

set_option maxRecDepth 4000 in
theorem scancode_eq (code : UInt8) : (code &&& ~~~breakBit).toNat = code.toNat % 128 := by
  have every : ∀ i : Fin 256, (UInt8.ofNat i &&& ~~~breakBit).toNat = (UInt8.ofNat i).toNat % 128 := by decide
  simpa using every ⟨code.toNat, code.toNat_lt⟩

variable {e : KeyEvent} {past : List KeyEvent}

theorem modifiersOf_modify {m : Key} (modifies : modify (modifiersOf past) e.scancode e.prefixed e.pressed = some m) :
    modifiersOf (e :: past) = m := by
  obtain ⟨prefixed, scancode, pressed⟩ := e
  unfold modify at modifies
  dsimp only at modifies
  split at modifies
  · rename_i shift
    obtain rfl | rfl := shift <;> cases prefixed <;> cases pressed <;> cases modifies <;> rfl
  split at modifies
  · rename_i alt
    subst alt
    cases prefixed <;> cases pressed <;> cases modifies <;> rfl
  split at modifies
  · rename_i ctrl
    subst ctrl
    cases prefixed <;> cases pressed <;> cases modifies <;> rfl
  · cases modifies

theorem ledsOf_modify {m m' : Key} {scancode : Nat} {prefixed pressed : Bool}
    (modifies : modify m scancode prefixed pressed = some m') : ledsOf m' = ledsOf m := by
  unfold modify at modifies
  split at modifies
  · cases modifies
    rfl
  split at modifies
  · cases prefixed <;> cases modifies <;> rfl
  split at modifies
  · cases prefixed <;> cases modifies <;> rfl
  · cases modifies

theorem of_modify_none {m : Key} {scancode : Nat} {prefixed pressed : Bool}
    (other : modify m scancode prefixed pressed = none) : scancode ≠ Scancode.leftShift ∧
      scancode ≠ Scancode.rightShift ∧ scancode ≠ Scancode.leftAlt ∧ scancode ≠ Scancode.leftCtrl := by
  unfold modify at other
  split at other
  · cases other
  split at other
  · cases other
  split at other
  · cases other
  rename_i shift alt ctrl
  exact ⟨fun left => shift (.inl left), fun right => shift (.inr right), alt, ctrl⟩

/-- The key changes at most a lock. -/
theorem modifiersOf_other (other : modify (modifiersOf past) e.scancode e.prefixed e.pressed = none) :
    modifiersOf (e :: past) =
      { modifiersOf past with
        capsLock := odd (presses Scancode.capsLock (e :: past))
        numLock := odd (numLocks (e :: past))
        scrollLock := odd (presses Scancode.scrollLock (e :: past)) } := by
  obtain ⟨left, right, alt, ctrl⟩ := of_modify_none other
  simp [modifiersOf, held, KeyEvent.isShift, KeyEvent.isAlt, KeyEvent.isCtrl, left, right, alt, ctrl]

theorem odd_succ (n : Nat) : odd (n + 1) = !odd n := by
  unfold odd
  rw [← decide_not]
  exact decide_eq_decide.mpr (by omega)

theorem presses_cons (s : Nat) :
    presses s (e :: past) = presses s past + if e.pressed && e.scancode == s then 1 else 0 := List.countP_cons

theorem numLocks_cons : numLocks (e :: past) = numLocks past +
    if e.pressed && e.scancode == Scancode.numLock && !held (KeyEvent.isCtrl false) past then 1 else 0 := rfl

theorem modifiersOf_released (other : modify (modifiersOf past) e.scancode e.prefixed e.pressed = none)
    (released : e.pressed = false) : modifiersOf (e :: past) = modifiersOf past := by
  rw [modifiersOf_other other]
  simp [presses_cons, numLocks_cons, released, modifiersOf]

/-- What a pressed key does to the locks. -/
def toggle (m : Key) (scancode : Nat) : Key :=
  if scancode = Scancode.capsLock then { m with capsLock := !m.capsLock }
  else if scancode = Scancode.scrollLock then { m with scrollLock := !m.scrollLock }
  else if scancode = Scancode.numLock ∧ m.ctrlLeft = false then { m with numLock := !m.numLock }
  else m

theorem modifiersOf_pressed (other : modify (modifiersOf past) e.scancode e.prefixed e.pressed = none)
    (pressed : e.pressed = true) : modifiersOf (e :: past) = toggle (modifiersOf past) e.scancode := by
  rw [modifiersOf_other other]
  unfold toggle
  split
  · rename_i caps
    simp [presses_cons, numLocks_cons, pressed, modifiersOf, caps, Scancode.capsLock, Scancode.numLock, Scancode.scrollLock,
      odd_succ]
  split
  · rename_i caps scroll
    simp [presses_cons, numLocks_cons, pressed, modifiersOf, scroll, Scancode.capsLock, Scancode.numLock, Scancode.scrollLock,
      odd_succ]
  split
  · rename_i caps scroll num
    have free : held (KeyEvent.isCtrl false) past = false := num.2
    simp [presses_cons, numLocks_cons, pressed, modifiersOf, num.1, free, Scancode.capsLock, Scancode.numLock,
      Scancode.scrollLock, odd_succ]
  · rename_i caps scroll num
    have kept : numLocks (e :: past) = numLocks past := by
      rw [numLocks_cons, if_neg, Nat.add_zero]
      intro counted
      simp only [Bool.and_eq_true, beq_iff_eq, Bool.not_eq_true'] at counted
      exact num ⟨counted.1.2, counted.2⟩
    simp [kept, presses_cons, caps, scroll, modifiersOf]

end Events

section Steps

variable {d : KeyDecoder} {i : KeyInput}

theorem press_lit (lit : Lit d d.modifier) (key : Key) (scancode : Nat) (prefixed : Bool) :
    (d.press key scancode prefixed).2.modifier = toggle d.modifier scancode ∧
      (d.press key scancode prefixed).2.status = d.status ∧
      Lit (d.press key scancode prefixed).2 (toggle d.modifier scancode) := by
  unfold press toggle
  split
  · exact ⟨rfl, rfl, lit.capsLock.congr rfl rfl⟩
  split
  · exact ⟨rfl, rfl, lit.scrollLock.congr rfl rfl⟩
  by_cases num : scancode = Scancode.numLock
  · rw [if_pos num]
    by_cases ctrl : d.modifier.ctrlLeft = true
    · rw [if_pos ctrl, if_neg fun free => Bool.false_ne_true (free.2.symm.trans ctrl)]
      exact ⟨rfl, rfl, lit⟩
    · rw [if_neg ctrl, if_pos ⟨num, eq_false_of_ne_true ctrl⟩]
      exact ⟨rfl, rfl, lit.numLock.congr rfl rfl⟩
  have kept : ¬(scancode = Scancode.numLock ∧ d.modifier.ctrlLeft = false) := fun free => num free.1
  rw [if_neg num, if_neg kept]
  split
  · split
    · exact ⟨rfl, rfl, lit⟩
    · exact ⟨rfl, rfl, lit⟩
  split
  · exact ⟨rfl, rfl, lit⟩
  · exact ⟨rfl, rfl, lit⟩

/-- The decoder is where its input has led it. -/
structure Follows (d : KeyDecoder) (i : KeyInput) : Prop where
  pending : d.prefixCode = i.pending
  modifier : d.modifier = modifiersOf i.history
  status : ∀ s < Scancode.keys, d.status s = held (fun e => e.scancode = s) i.history
  lit : Lit d d.modifier

variable {code : UInt8}

theorem next_pending (isPrefix : code = prefix1 ∨ code = prefix2) : i.next code = { i with pending := code } :=
  if_pos isPrefix

theorem next_event (noPrefix : ¬(code = prefix1 ∨ code = prefix2)) :
    i.next code = ⟨0, ⟨i.pending = 0xe0, code.toNat % 128, code < 128⟩ :: i.history⟩ := if_neg noPrefix

/-- What the decoder does with an event. -/
def apply (d : KeyDecoder) (e : KeyEvent) : Key × KeyDecoder :=
  if e.scancode < Scancode.keys then
    let d' := { d with status := Function.update d.status e.scancode e.pressed }
    match modify d.modifier e.scancode e.prefixed e.pressed with
    | some modifier => (d.modifier, { d' with modifier })
    | none => if e.pressed then d'.press d.modifier e.scancode e.prefixed else (d.modifier, d')
  else (d.modifier, d)

theorem decode_pending (isPrefix : code = prefix1 ∨ code = prefix2) :
    d.decode code = (d.modifier, { d with prefixCode := code }) := if_pos isPrefix

theorem decode_event (pending : d.prefixCode = i.pending) (noPrefix : ¬(code = prefix1 ∨ code = prefix2)) :
    d.decode code = ((d.apply ⟨i.pending = 0xe0, code.toNat % 128, code < 128⟩).1,
      { (d.apply ⟨i.pending = 0xe0, code.toNat % 128, code < 128⟩).2 with prefixCode := 0 }) := by
  have pressed : decide (code &&& breakBit = 0) = decide (code < 128) := decide_eq_decide.mpr (pressed_iff code)
  have prefixed : decide (d.prefixCode = prefix1) = decide (i.pending = 0xe0) := by
    rw [pending]
    rfl
  unfold decode apply
  rw [if_neg noPrefix]
  dsimp only
  rewrite [scancode_eq, pressed, prefixed]
  generalize modify _ _ _ _ = changed
  split
  · cases changed with
    | some m => rfl
    | none =>
      cases decide (code < 128) with
      | true => rfl
      | false => rfl
  · rfl

variable {e : KeyEvent} {past : List KeyEvent}

theorem status_cons (known : ∀ s < Scancode.keys, d.status s = held (fun e => e.scancode = s) past)
    (s : Nat) (key : s < Scancode.keys) :
    Function.update d.status e.scancode e.pressed s = held (fun e => e.scancode = s) (e :: past) := by
  unfold held
  by_cases this : e.scancode = s
  · rw [if_pos (decide_eq_true this), ← this, Function.update_self]
  · rw [if_neg (by simpa using this), Function.update_of_ne (Ne.symm this), known s key]

/-- A key that is not known changes nothing. -/
theorem modifiersOf_unknown (unknown : ¬ e.scancode < Scancode.keys) :
    modifiersOf (e :: past) = modifiersOf past := by
  have other : modify (modifiersOf past) e.scancode e.prefixed e.pressed = none := by
    unfold modify
    rw [if_neg, if_neg, if_neg]
    all_goals
      simp only [Scancode.keys, Scancode.leftShift, Scancode.rightShift, Scancode.leftAlt, Scancode.leftCtrl] at *
      omega
  cases pressed : e.pressed with
  | false => exact modifiersOf_released other pressed
  | true =>
    rw [modifiersOf_pressed other pressed]
    unfold toggle
    rw [if_neg, if_neg, if_neg]
    all_goals
      simp only [Scancode.keys, Scancode.capsLock, Scancode.scrollLock, Scancode.numLock] at *
      omega

theorem apply_follows (modifier : d.modifier = modifiersOf past)
    (status : ∀ s < Scancode.keys, d.status s = held (fun e => e.scancode = s) past) (lit : Lit d d.modifier) :
    (d.apply e).2.modifier = modifiersOf (e :: past) ∧
      (∀ s < Scancode.keys, (d.apply e).2.status s = held (fun e => e.scancode = s) (e :: past)) ∧
      Lit (d.apply e).2 (modifiersOf (e :: past)) := by
  unfold apply
  split
  · dsimp only
    split
    · rename_i m changed
      have leds : ledsOf m = ledsOf d.modifier := ledsOf_modify changed
      rw [modifier] at changed
      rw [modifiersOf_modify changed]
      exact ⟨rfl, status_cons status, leds ▸ lit.leds, lit.commands, lit.shown⟩
    · rename_i other
      rw [modifier] at other
      split
      · rename_i pressed
        have after := press_lit (d := { d with status := Function.update d.status e.scancode e.pressed })
          (lit.congr rfl rfl) d.modifier e.scancode e.prefixed
        rw [modifiersOf_pressed other pressed, ← modifier]
        refine ⟨after.1, ?_, after.2.2⟩
        rw [after.2.1]
        exact status_cons status
      · rename_i released
        rw [modifiersOf_released other (eq_false_of_ne_true released), ← modifier]
        exact ⟨rfl, status_cons status, lit.congr rfl rfl⟩
  · rename_i unknown
    rw [modifiersOf_unknown unknown, ← modifier]
    refine ⟨rfl, fun s key => ?_, lit⟩
    have other : e.scancode ≠ s := fun same => unknown (same ▸ key)
    unfold held
    rw [if_neg (by simpa using other), status s key]

theorem follows_decode (follows : Follows d i) (code : UInt8) : Follows (d.decode code).2 (i.next code) := by
  by_cases isPrefix : code = prefix1 ∨ code = prefix2
  · rw [next_pending isPrefix, decode_pending isPrefix]
    exact ⟨rfl, follows.modifier, follows.status, follows.lit.congr rfl rfl⟩
  · rw [next_event isPrefix, decode_event follows.pending isPrefix]
    have after := apply_follows (e := ⟨i.pending = 0xe0, code.toNat % 128, code < 128⟩)
      follows.modifier follows.status follows.lit
    exact ⟨rfl, after.1, after.2.1, (after.1 ▸ after.2.2).congr rfl rfl⟩

theorem press_key (m : Key) (scancode : Nat) (prefixed : Bool) :
    (d.press m scancode prefixed).1 =
      if scancode = Scancode.capsLock ∨ scancode = Scancode.scrollLock ∨
        scancode = Scancode.numLock ∧ ¬ d.modifier.ctrlLeft then m
      else if scancode = Scancode.slash ∧ prefixed then { m with scancode := .ofNat Scancode.div, shift := true }
      else if scancode ≠ Scancode.numLock ∧ scancode ≠ Scancode.slash ∧ d.modifier.numLock ∧ prefixed then
        { m with scancode := .ofNat scancode, numLock := false }
      else { m with scancode := .ofNat scancode } := by
  unfold press
  grind [Scancode.capsLock, Scancode.scrollLock, Scancode.numLock, Scancode.slash]

theorem modify_none_iff {m : Key} : modify m e.scancode e.prefixed e.pressed = none ↔ ¬ e.isModifier := by
  constructor
  · intro other modifier
    have := of_modify_none other
    simp only [KeyEvent.isModifier, decide_eq_true_eq] at modifier
    grind
  · intro other
    simp only [KeyEvent.isModifier, decide_eq_true_eq, not_or] at other
    unfold modify
    rw [if_neg (not_or.mpr ⟨other.1, other.2.1⟩), if_neg other.2.2.1, if_neg other.2.2.2]

theorem apply_pressed (known : e.scancode < Scancode.keys) (other : ¬ e.isModifier) (pressed : e.pressed = true) :
    (d.apply e).1 = (d.press d.modifier e.scancode e.prefixed).1 := by
  unfold apply
  rw [if_pos known, modify_none_iff.mpr other]
  dsimp only
  rw [if_pos pressed, press_key, press_key]

theorem apply_quiet (quiet : ¬(e.scancode < Scancode.keys ∧ ¬ e.isModifier ∧ e.pressed)) :
    (d.apply e).1 = d.modifier := by
  unfold apply
  split
  · rename_i known
    dsimp only
    split
    · rfl
    · rename_i other
      rw [if_neg fun pressed => quiet ⟨known, modify_none_iff.mp other, pressed⟩]
  · rfl

theorem types_iff : types e past ↔ (e.scancode < Scancode.keys ∧ ¬ e.isModifier ∧ e.pressed) ∧ 0 < e.scancode ∧
    ¬(e.scancode = Scancode.capsLock ∨ e.scancode = Scancode.scrollLock ∨
      e.scancode = Scancode.numLock ∧ ¬ held (KeyEvent.isCtrl false) past) := by
  unfold types
  rw [decide_eq_true_eq]
  grind

theorem valid_iff (k : Key) : k.valid ↔ 0 < k.scancode.toNat ∧ k.scancode.toNat < Scancode.keys := by
  have zero : k.scancode = 0 ↔ k.scancode.toNat = 0 := UInt8.toNat_inj.symm
  unfold Key.valid
  rw [decide_eq_true_eq, Nat.pos_iff_ne_zero, Ne, zero]

theorem toNat_scancode {scancode : Nat} (known : scancode < Scancode.keys) : (UInt8.ofNat scancode).toNat = scancode := by
  unfold Scancode.keys at known
  rw [UInt8.toNat_ofNat', Nat.mod_eq_of_lt (by omega)]

theorem apply_valid (modifier : d.modifier = modifiersOf past) : (d.apply e).1.valid = types e past := by
  have noKey : (modifiersOf past).valid = false := rfl
  have ctrl : d.modifier.ctrlLeft = held (KeyEvent.isCtrl false) past := by
    rw [modifier]
    rfl
  rw [Bool.eq_iff_iff, types_iff, ← ctrl]
  by_cases active : e.scancode < Scancode.keys ∧ ¬ e.isModifier ∧ e.pressed
  · rw [apply_pressed active.1 active.2.1 active.2.2, press_key]
    split
    · rename_i lock
      refine ⟨fun valid => ?_, fun typing => absurd lock typing.2.2⟩
      rw [modifier, noKey] at valid
      cases valid
    · rename_i noLock
      split
      · rename_i division
        rw [division.1] at active noLock ⊢
        exact ⟨fun _ => ⟨active, by decide, noLock⟩, fun _ => by rfl⟩
      rw [valid_iff]
      have code := toNat_scancode active.1
      split
      · dsimp only
        rw [code]
        exact ⟨fun valid => ⟨active, valid.1, noLock⟩, fun typing => ⟨typing.2.1, active.1⟩⟩
      · dsimp only
        rw [code]
        exact ⟨fun valid => ⟨active, valid.1, noLock⟩, fun typing => ⟨typing.2.1, active.1⟩⟩
  · rw [apply_quiet active, modifier, noKey]
    exact ⟨nofun, fun typing => absurd typing.1 active⟩

theorem apply_ascii (modifier : d.modifier = modifiersOf past) (typing : types e past = true) :
    (d.apply e).1.ascii = typed e past := by
  obtain ⟨active, positive, noLock⟩ := types_iff.mp typing
  have ctrl : d.modifier.ctrlLeft = held (KeyEvent.isCtrl false) past := by
    rw [modifier]
    rfl
  rw [apply_pressed active.1 active.2.1 active.2.2, press_key, if_neg (ctrl ▸ noLock)]
  unfold typed
  split
  · rfl
  rename_i noDivision
  have shift : d.modifier.shift = held KeyEvent.isShift past := by
    rw [modifier]
    rfl
  have altLeft : d.modifier.altLeft = held (KeyEvent.isAlt false) past := by
    rw [modifier]
    rfl
  have altRight : d.modifier.altRight = held (KeyEvent.isAlt true) past := by
    rw [modifier]
    rfl
  have caps : d.modifier.capsLock = odd (presses Scancode.capsLock past) := by
    rw [modifier]
    rfl
  have num : d.modifier.numLock = odd (numLocks past) := by
    rw [modifier]
    rfl
  have keypad : Key.isKeypad e.scancode → e.scancode ≠ Scancode.numLock ∧ e.scancode ≠ Scancode.slash := by
    simp only [Key.isKeypad, Scancode.numLock, Scancode.slash, decide_eq_true_eq]
    omega
  have code := toNat_scancode active.1
  rw [← shift, ← altLeft, ← altRight, ← caps, ← num]
  split
  · rename_i cleared
    rw [Key.ascii_eq ((valid_iff _).mpr ⟨code.symm ▸ positive, code.symm ▸ active.1⟩)]
    dsimp only
    rw [code]
    grind
  · rename_i kept
    rw [Key.ascii_eq ((valid_iff _).mpr ⟨code.symm ▸ positive, code.symm ▸ active.1⟩)]
    dsimp only
    rw [code]
    grind

theorem follows_start : Follows start ⟨0, []⟩ :=
  ⟨rfl, by decide, fun _ _ => rfl, by decide, by decide, fun _ => rfl⟩

set_option maxRecDepth 8000 in
theorem polled_iff (status : UInt8) : (status.toNat.testBit 0 ∧ ¬ status.toNat.testBit 5) ↔
    status &&& PS2Controller.hasOutput = PS2Controller.hasOutput ∧
      ¬ status &&& PS2Controller.isMouse = PS2Controller.isMouse := by
  have every : ∀ i : Fin 256, let status := UInt8.ofNat i
      (status.toNat.testBit 0 ∧ ¬ status.toNat.testBit 5) ↔
        status &&& PS2Controller.hasOutput = PS2Controller.hasOutput ∧
          ¬ status &&& PS2Controller.isMouse = PS2Controller.isMouse := by decide
  simpa using every ⟨status.toNat, status.toNat_lt⟩

theorem fetch_decode (pressed : Key) {status : UInt8} (keyboard : status.toNat.testBit 0 ∧ ¬ status.toNat.testBit 5) :
    d.fetch pressed status code = ((d.decode code).1.valid, (d.decode code).1, (d.decode code).2) := by
  have bits := (polled_iff status).mp keyboard
  unfold fetch
  rw [if_neg (not_not_intro bits.1), if_neg bits.2]

theorem fetch_ignore (pressed : Key) {status : UInt8} (other : ¬(status.toNat.testBit 0 ∧ ¬ status.toNat.testBit 5)) :
    d.fetch pressed status code = (false, pressed, d) := by
  have bits := mt (polled_iff status).mpr other
  unfold fetch
  split
  · rfl
  rename_i output
  split
  · rfl
  rename_i mouse
  exact absurd ⟨not_not.mp output, mouse⟩ bits

theorem text_next (follows : Follows d i) (code : UInt8) : text (i.next code).history =
    if (d.decode code).1.valid then text i.history ++ [(d.decode code).1.ascii] else text i.history := by
  by_cases isPrefix : code = prefix1 ∨ code = prefix2
  · have invalid : d.modifier.valid = false := by
      rw [follows.modifier]
      rfl
    rw [next_pending isPrefix, decode_pending isPrefix, invalid]
    rfl
  · rw [next_event isPrefix, decode_event follows.pending isPrefix, apply_valid follows.modifier, text]
    split
    · rename_i typing
      rw [apply_ascii follows.modifier typing]
    · rfl

variable {status : UInt8} {past : List (UInt8 × UInt8)}

theorem poll_cons : poll ((status, code) :: past) = (((poll past).1.fetch .invalid status code).2.2,
    if ((poll past).1.fetch .invalid status code).1 then
      (poll past).2 ++ [((poll past).1.fetch .invalid status code).2.1.ascii]
    else (poll past).2) := rfl

theorem poll_keyboard (keyboard : status.toNat.testBit 0 ∧ ¬ status.toNat.testBit 5) :
    poll ((status, code) :: past) = (((poll past).1.decode code).2,
      if ((poll past).1.decode code).1.valid then (poll past).2 ++ [((poll past).1.decode code).1.ascii]
      else (poll past).2) := by
  rw [poll_cons, fetch_decode _ keyboard]

theorem poll_ignore (other : ¬(status.toNat.testBit 0 ∧ ¬ status.toNat.testBit 5)) :
    poll ((status, code) :: past) = poll past := by
  rw [poll_cons, fetch_ignore _ other]
  rfl

theorem keyInput_keyboard (keyboard : status.toNat.testBit 0 ∧ ¬ status.toNat.testBit 5) :
    keyInput ((status, code) :: past) = (keyInput past).next code := if_pos keyboard

theorem keyInput_ignore (other : ¬(status.toNat.testBit 0 ∧ ¬ status.toNat.testBit 5)) :
    keyInput ((status, code) :: past) = keyInput past := if_neg other

/-- The keyboard that the decoder knows is the one that was typed on. -/
theorem poll_follows (polls : List (UInt8 × UInt8)) : Follows (poll polls).1 (keyInput polls) := by
  induction polls with
  | nil => exact follows_start
  | cons last past ih =>
    by_cases keyboard : last.1.toNat.testBit 0 ∧ ¬ last.1.toNat.testBit 5
    · rw [poll_keyboard keyboard, keyInput_keyboard keyboard]
      exact follows_decode ih last.2
    · rw [poll_ignore keyboard, keyInput_ignore keyboard]
      exact ih

/-- The characters that are fetched are the typed ones. -/
theorem poll_text (polls : List (UInt8 × UInt8)) : (poll polls).2 = text (keyInput polls).history := by
  induction polls with
  | nil => rfl
  | cons last past ih =>
    by_cases keyboard : last.1.toNat.testBit 0 ∧ ¬ last.1.toNat.testBit 5
    · rw [poll_keyboard keyboard, keyInput_keyboard keyboard, text_next (poll_follows past), ih]
    · rw [poll_ignore keyboard, keyInput_ignore keyboard]
      exact ih

end Steps

end KeyDecoder

end MPStuBS
