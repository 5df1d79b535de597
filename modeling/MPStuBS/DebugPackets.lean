import MPStuBS.DebugStub
import MPStuBS.Numerals
import Mathlib.Data.List.Basic

/-! Packets of the remote debugger: numbers and bytes in a packet are read as they are written, and a packet is
received as it was sent. -/
namespace MPStuBS.DebugStub

section Texts

def hexOf (bytes : List UInt8) : List UInt8 :=
  bytes.flatMap fun c => [digitChar (c.toNat / 16), digitChar (c.toNat % 16)]

/-- Bytes that mean something else are escaped. -/
def escape (bytes : List UInt8) : List UInt8 :=
  bytes.flatMap fun c => if c = 36 ∨ c = 35 ∨ c = 125 ∨ c = 42 then [125, c ^^^ 0x20] else [c]

def frame (payload : List UInt8) : List UInt8 :=
  36 :: payload ++ 35 :: hexOf [checksum payload]

theorem length_hexOf (bytes : List UInt8) : (hexOf bytes).length = bytes.length * 2 := by
  unfold hexOf
  induction bytes with
  | nil => rfl
  | cons c rest ih =>
    rw [List.flatMap_cons, List.length_append, ih, List.length_cons]
    simp only [List.length_cons, List.length_nil]
    omega

theorem hexOf_cons (c : UInt8) (rest : List UInt8) :
    hexOf (c :: rest) = digitChar (c.toNat / 16) :: digitChar (c.toNat % 16) :: hexOf rest := rfl

end Texts

section Runs

variable {α β : Type} {x : Stub α} {f : α → Stub β} {a : α} {s s' : State} {e : Stop}

theorem bind_ok (ran : x s = .ok a s') : (x >>= f) s = f a s' := by
  change EStateM.bind x f s = _
  unfold EStateM.bind
  rw [ran]

theorem bind_error (ran : x s = .error e s') : (x >>= f) s = .error e s' := by
  change EStateM.bind x f s = _
  unfold EStateM.bind
  rw [ran]

theorem get_ok (s : State) : (get : Stub State) s = .ok s s := rfl

theorem write_ok (c : UInt8) (s : State) : write c s = .ok () { s with output := s.output ++ [c] } := rfl

theorem read_ok {c : UInt8} {input : List UInt8} (next : s.input = c :: input) :
    read s = .ok c { s with input } := by
  unfold read
  rw [next]

end Runs

section Digits

variable {d : Nat}

theorem getDigit_eq (small : d < 16) : getDigit d = digitChar d := by
  have every : ∀ i : Fin 16, getDigit i = digitChar i := by decide
  exact every ⟨d, small⟩

theorem getValue_digitChar (small : d < 16) : getValue (digitChar d) 16 = some d := by
  have every : ∀ i : Fin 16, getValue (digitChar i) 16 = some i.val := by decide
  exact every ⟨d, small⟩

theorem digitChar_plain (small : d < 16) : digitChar d ≠ 0 ∧ digitChar d ≠ 35 ∧ digitChar d ≠ 45 ∧
    digitChar d ≠ 43 ∧ digitChar d ≠ 120 ∧ digitChar d ≠ 88 ∧ digitChar d ≠ 0xff := by
  have every : ∀ i : Fin 16, digitChar i ≠ 0 ∧ digitChar i ≠ 35 ∧ digitChar i ≠ 45 ∧ digitChar i ≠ 43 ∧
      digitChar i ≠ 120 ∧ digitChar i ≠ 88 ∧ digitChar i ≠ 0xff := by decide
  exact every ⟨d, small⟩

theorem high_lt (c : UInt8) : c.toNat / 16 < 16 := by
  have := c.toNat_lt
  omega

theorem low_lt (c : UInt8) : c.toNat % 16 < 16 := Nat.mod_lt _ (by decide)

theorem whole_byte (c : UInt8) : UInt8.ofNat (c.toNat / 16 * 16 + c.toNat % 16) = c := by
  rw [Nat.div_add_mod' c.toNat 16, UInt8.ofNat_toNat]

theorem hexOf_plain (bytes : List UInt8) : ∀ c ∈ hexOf bytes, ∃ d < 16, c = digitChar d := by
  intro c member
  obtain ⟨b, -, inside⟩ := List.mem_flatMap.mp member
  rcases List.mem_cons.mp inside with rfl | second
  · exact ⟨_, high_lt b, rfl⟩
  · exact ⟨_, low_lt b, List.mem_singleton.mp second⟩

end Digits

/-- The text is in the buffer at this position. -/
structure Holds (buf : Nat → UInt8) (pos : Nat) (text : List UInt8) : Prop where
  fits : pos + text.length ≤ pktBufSize
  content : ∀ k (inside : k < text.length), buf (pos + k) = text[k]

section Buffers

variable {buf : Nat → UInt8} {pos : Nat} {c : UInt8} {text rest : List UInt8} {s : State}

theorem Holds.head (holds : Holds buf pos (c :: rest)) : buf pos = c := holds.content 0 (Nat.succ_pos _)

theorem Holds.tail (holds : Holds buf pos (c :: rest)) : Holds buf (pos + 1) rest := by
  refine ⟨?_, fun k inside => ?_⟩
  · have fits := holds.fits
    rw [List.length_cons] at fits
    omega
  · have at' := holds.content (k + 1) (Nat.succ_lt_succ inside)
    rw [← Nat.add_assoc, Nat.add_right_comm] at at'
    exact at'

theorem Holds.inside (holds : Holds buf pos (c :: rest)) : pos < pktBufSize := by
  have fits := holds.fits
  rw [List.length_cons] at fits
  omega

theorem Holds.drop : ∀ {text : List UInt8} {pos : Nat}, Holds buf pos (text ++ rest) →
    Holds buf (pos + text.length) rest
  | [], _, holds => holds
  | c :: text, pos, holds => by
    have next := (Holds.tail holds).drop
    rw [List.length_cons, ← Nat.add_assoc, Nat.add_right_comm]
    exact next

theorem load_ok (holds : Holds s.pktBuf pos (c :: rest)) : load pos s = .ok c s := by
  unfold load
  rw [if_pos holds.inside, holds.head]

theorem packet_eq (holds : Holds s.pktBuf 0 text) : s.packet text.length = text := by
  unfold State.packet
  refine List.ext_getElem (by simp) fun k _ inside => ?_
  have at' := holds.content k inside
  rw [Nat.zero_add] at at'
  rw [List.getElem_map, List.getElem_range, at']

end Buffers

section Numbers

variable {s : State} {pos : Nat} {rest : List UInt8}

/-- No digit goes on at this text. -/
def Ends (rest : List UInt8) : Prop := ∀ c ∈ rest.head?, getValue c 16 = none ∧ c ≠ 120 ∧ c ≠ 88

theorem digitLoop_digits (ends : Ends rest) : ∀ {ds : List UInt8} {pos left : Nat} (value : BitVec 64) (valid : Bool),
    Holds s.pktBuf pos (ds ++ rest) → (∀ c ∈ ds, ∃ d < 16, c = digitChar d) → left = (ds ++ rest).length →
    digitLoop 16 left pos value valid s =
      .ok (ds.foldl (fun v c => v * 16 + BitVec.ofNat 64 (digitOf c)) value, valid || !ds.isEmpty, pos + ds.length) s
  | [], pos, left, value, valid, holds, _, whole => by
    subst whole
    cases rest with
    | nil =>
      rw [List.isEmpty_nil, Bool.not_true, Bool.or_false]
      rfl
    | cons c rest =>
      have stop := (ends c rfl).1
      rw [List.nil_append, List.length_cons]
      unfold digitLoop
      rw [bind_ok (load_ok holds), stop, List.isEmpty_nil, Bool.not_true, Bool.or_false]
      split
      · rfl
      · rfl
  | c :: ds, pos, left, value, valid, holds, digits, whole => by
    subst whole
    obtain ⟨d, small, rfl⟩ := digits c (.head _)
    have step := digitLoop_digits ends (value * 16 + BitVec.ofNat 64 d) true (Holds.tail holds)
      (fun c member => digits c (.tail _ member)) rfl
    rw [List.cons_append, List.length_cons]
    unfold digitLoop
    rw [bind_ok (load_ok holds), if_neg (digitChar_plain small).1, getValue_digitChar small]
    refine step.trans ?_
    rw [List.foldl_cons, digitOf_digitChar small, List.length_cons, List.isEmpty_cons, Bool.not_false, Bool.or_true,
      Bool.true_or, Nat.add_assoc, Nat.add_comm 1]

theorem foldl_value (ds : List UInt8) : ∀ n : Nat,
    ds.foldl (fun v c => v * 16 + BitVec.ofNat 64 (digitOf c)) (BitVec.ofNat 64 n) =
      BitVec.ofNat 64 (ds.foldl (fun n c => digitOf c + 16 * n) n) := by
  induction ds with
  | nil => exact fun _ => rfl
  | cons c ds ih =>
    intro n
    rw [List.foldl_cons, List.foldl_cons, ← ih]
    congr 1
    rw [Nat.add_comm, Nat.mul_comm, BitVec.ofNat_add, BitVec.ofNat_mul]
    rfl

theorem hexPrefix_digits {c : UInt8} {ds : List UInt8} (ends : Ends rest)
    (holds : Holds s.pktBuf pos (c :: ds ++ rest)) (digits : ∀ b ∈ c :: ds, ∃ d < 16, b = digitChar d) :
    hexPrefix pos 0 (c :: ds ++ rest).length s = .ok false s := by
  have noPrefix : ∀ b ∈ (ds ++ rest).head?, b ≠ 120 ∧ b ≠ 88 := by
    intro b head
    cases ds with
    | nil => exact (ends b head).2
    | cons b' ds =>
      obtain rfl : b' = b := Option.some.inj head
      obtain ⟨d', small', rfl⟩ := digits b' (.tail _ (.head _))
      exact ⟨(digitChar_plain small').2.2.2.2.1, (digitChar_plain small').2.2.2.2.2.1⟩
  unfold hexPrefix
  split
  · rename_i long
    rw [Nat.add_zero, bind_ok (load_ok holds)]
    split
    · have next := Holds.tail holds
      cases more : ds ++ rest with
      | nil =>
        rw [List.cons_append, more] at long
        exact absurd long (by simp)
      | cons b behind =>
        rw [List.append_eq, more] at next
        rw [more] at noPrefix
        have plain := noPrefix b rfl
        rw [bind_ok (load_ok next), decide_eq_false (not_or.mpr plain)]
        rfl
    · rfl
  · rfl

/-- No prefix makes the number another one. -/
theorem stringToInteger_digits {c : UInt8} {ds : List UInt8} (ends : Ends rest)
    (holds : Holds s.pktBuf pos (c :: ds ++ rest)) (digits : ∀ b ∈ c :: ds, ∃ d < 16, b = digitChar d) :
    stringToInteger pos (c :: ds ++ rest).length 16 s =
      .ok (BitVec.ofNat 64 (readNumber 16 (c :: ds)), some (pos + (c :: ds).length)) s := by
  obtain ⟨d, small, first⟩ := digits c (.head _)
  have plain := digitChar_plain small
  rw [← first] at plain
  have loop := digitLoop_digits ends (BitVec.ofNat 64 0) false holds digits rfl
  rw [foldl_value] at loop
  have noSign : ¬(c = 45 ∨ c = 43) := not_or.mpr ⟨plain.2.2.1, plain.2.2.2.1⟩
  unfold stringToInteger
  rw [if_neg (by simp), bind_ok (load_ok holds), if_neg noSign, bind_ok (hexPrefix_digits ends holds digits)]
  dsimp only
  rw [if_neg Bool.false_ne_true, if_neg Bool.false_ne_true, if_neg (by decide), Nat.sub_zero, Nat.add_zero]
  refine (bind_ok loop).trans ?_
  dsimp only
  rw [List.isEmpty_cons, Bool.not_false, Bool.or_true, if_pos rfl, if_neg plain.2.2.1]
  rfl

/-- A numeral is read as its number. -/
theorem expectInteger_numeral {n pktLen : Nat} (ends : Ends rest) (holds : Holds s.pktBuf pos (numeral 16 n ++ rest))
    (whole : pktLen = pos + (numeral 16 n ++ rest).length) :
    expectInteger pktLen pos s = .ok (BitVec.ofNat 64 n, pos + (numeral 16 n).length) s := by
  have spec := numeral_spec (b := 16) (by decide) (by decide) n
  have length : (pktLen + 2 ^ 64 - pos) % 2 ^ 64 = (numeral 16 n ++ rest).length := by
    have fits := holds.fits
    unfold pktBufSize at fits
    omega
  unfold expectInteger
  rw [length]
  obtain ⟨nonempty, digits, -, value⟩ := spec
  cases text : numeral 16 n with
  | nil => exact absurd text nonempty
  | cons c ds =>
    rw [text] at holds digits value
    rw [bind_ok (stringToInteger_digits ends holds digits), value]
    rfl

end Numbers

section Sending

variable {s : State} {buf : Nat → UInt8} {pos : Nat} {c ack : UInt8} {rest input : List UInt8}

theorem Holds.cons (head : buf pos = c) (tail : Holds buf (pos + 1) rest) :
    Holds buf pos (c :: rest) := by
  refine ⟨?_, fun k bound => ?_⟩
  · have fits := tail.fits
    rw [List.length_cons]
    omega
  · cases k with
    | zero => exact head
    | succ k =>
      have at' := tail.content k (Nat.lt_of_succ_lt_succ bound)
      rw [Nat.add_assoc, Nat.add_comm 1] at at'
      exact at'

theorem Holds.nil (inside : pos ≤ pktBufSize) : Holds buf pos [] :=
  ⟨inside, fun _ bound => absurd bound (Nat.not_lt_zero _)⟩

theorem store_ok (inside : pos < pktBufSize) :
    store pos c s = .ok () { s with pktBuf := Function.update s.pktBuf pos c } := if_pos inside

theorem storeHex_ok : ∀ (data : List UInt8) (pos : Nat) (s : State), pos + data.length * 2 ≤ pktBufSize →
    ∃ buf, storeHex pos data s = .ok () { s with pktBuf := buf } ∧ Holds buf pos (hexOf data) ∧
      ∀ i < pos, buf i = s.pktBuf i
  | [], pos, s, fits => ⟨s.pktBuf, rfl, .nil (by simpa using fits), fun _ _ => rfl⟩
  | c :: data, pos, s, fits => by
    rw [List.length_cons] at fits
    obtain ⟨buf, stored, holds, before⟩ := storeHex_ok data (pos + 2)
      { s with
        pktBuf := Function.update (Function.update s.pktBuf pos (digitChar (c.toNat / 16))) (pos + 1)
          (digitChar (c.toNat % 16)) } (by omega)
    have first : buf pos = digitChar (c.toNat / 16) := by
      rw [before pos (by omega)]
      dsimp only
      rw [Function.update_of_ne (by omega), Function.update_self]
    have second : buf (pos + 1) = digitChar (c.toNat % 16) := by
      rw [before (pos + 1) (by omega)]
      exact Function.update_self ..
    refine ⟨buf, ?_, .cons first (.cons second holds), fun i small => ?_⟩
    · unfold storeHex
      rw [getDigit_eq (high_lt c), getDigit_eq (low_lt c), bind_ok (store_ok (by omega)),
        bind_ok (store_ok (by omega))]
      exact stored
    · rw [before i (by omega)]
      dsimp only
      rw [Function.update_of_ne (by omega), Function.update_of_ne (by omega)]

theorem encodeHex_ok (pos bufLen : Nat) (data : List UInt8) (s : State) (fits : data.length * 2 ≤ bufLen)
    (inside : pos + bufLen ≤ pktBufSize) :
    ∃ buf, encodeHex pos bufLen data s = .ok (some (data.length * 2)) { s with pktBuf := buf } ∧
      Holds buf pos (hexOf data) ∧ ∀ i < pos, buf i = s.pktBuf i := by
  obtain ⟨buf, stored, holds, before⟩ := storeHex_ok data pos s (by omega)
  refine ⟨buf, ?_, holds, before⟩
  unfold encodeHex
  rw [if_neg (by omega), bind_ok stored]
  rfl

theorem writeString_ok : ∀ (text : List UInt8) {s : State},
    writeString text s = .ok () { s with output := s.output ++ text }
  | [], s => by
    rw [List.append_nil]
    rfl
  | c :: rest, s => by
    unfold writeString
    rw [bind_ok (write_ok c s), writeString_ok rest]
    dsimp only
    rw [List.append_assoc]
    rfl

theorem sendData_ok {data : List UInt8} (acked : s.input = ack :: input) :
    sendData data s = .ok () { s with output := s.output ++ frame data, input } := by
  have check : [35, getDigit ((checksum data).toNat / 16), getDigit ((checksum data).toNat % 16)] =
      35 :: hexOf [checksum data] := by
    rw [getDigit_eq (high_lt _), getDigit_eq (low_lt _)]
    rfl
  have received : receiveAck { s with output := s.output ++ frame data } =
      .ok () { s with output := s.output ++ frame data, input } := by
    unfold receiveAck
    exact (bind_ok (read_ok (s := { s with output := s.output ++ frame data }) acked)).trans rfl
  unfold sendData
  rw [bind_ok (write_ok 36 s), bind_ok (writeString_ok data)]
  dsimp only
  rw [check, bind_ok (writeString_ok _)]
  dsimp only
  rw [List.append_assoc, List.append_assoc]
  exact received

theorem sendPacket_ok {data : List UInt8} (holds : Holds s.pktBuf 0 data) (acked : s.input = ack :: input) :
    sendPacket data.length s = .ok () { s with output := s.output ++ frame data, input } := by
  have fits := holds.fits
  unfold sendPacket
  rw [if_neg (by omega)]
  refine (bind_ok (get_ok s)).trans ?_
  rw [packet_eq holds]
  exact sendData_ok acked

/-- The answers with a letter and a number. -/
theorem sendCode_ok (letter code : UInt8) (acked : s.input = ack :: input) :
    ∃ buf, sendCode letter code s =
      .ok () { s with pktBuf := buf, output := s.output ++ frame (letter :: hexOf [code]), input } := by
  obtain ⟨buf, encoded, holds, before⟩ := encodeHex_ok 1 (pktBufSize - 1) [code]
    { s with pktBuf := Function.update s.pktBuf 0 letter } (Nat.le_of_ble_eq_true rfl) (by decide)
  have first : buf 0 = letter := by
    rw [before 0 (by decide)]
    exact Function.update_self 0 letter s.pktBuf
  have whole : Holds buf 0 (letter :: hexOf [code]) := .cons first holds
  refine ⟨buf, ?_⟩
  unfold sendCode
  rw [bind_ok (store_ok (by decide)), bind_ok encoded]
  exact sendPacket_ok (s := { s with pktBuf := buf }) whole acked

end Sending

section Receiving

variable {s : State} {payload rest noise : List UInt8}

theorem findStart_noise : ∀ {noise : List UInt8}, (∀ c ∈ noise, c ≠ 36) → findStart (noise ++ 36 :: rest) = some rest
  | [], _ => rfl
  | c :: noise, quiet => by
    rw [List.cons_append, findStart, if_neg (quiet c (.head _))]
    exact findStart_noise fun c member => quiet c (.tail _ member)

theorem receiveData_payload (rest : List UInt8) : ∀ (payload : List UInt8) (len : Nat) (s : State), (∀ c ∈ payload, c ≠ 35) →
    len + payload.length ≤ pktBufSize →
      ∃ buf, receiveData (payload ++ 35 :: rest) len s =
        .ok (some (len + payload.length)) { s with pktBuf := buf, input := rest } ∧ Holds buf len payload ∧
          ∀ i < len, buf i = s.pktBuf i
  | [], len, s, _, fits => ⟨s.pktBuf, rfl, .nil (by simpa using fits), fun _ _ => rfl⟩
  | c :: payload, len, s, plain, fits => by
    rw [List.length_cons] at fits
    obtain ⟨buf, received, holds, before⟩ := receiveData_payload rest payload (len + 1)
      { s with pktBuf := Function.update s.pktBuf len c } (fun c member => plain c (.tail _ member)) (by omega)
    have first : buf len = c := by
      rw [before len (by omega)]
      exact Function.update_self len c s.pktBuf
    refine ⟨buf, ?_, .cons first holds, fun i small => ?_⟩
    · rw [List.cons_append, receiveData]
      dsimp only
      rw [if_neg (plain c (.head _)), if_neg (by omega), received, List.length_cons,
        Nat.add_assoc, Nat.add_comm 1]
    · rw [before i (by omega)]
      exact Function.update_of_ne (by omega) ..

theorem readDigit_ok {c : UInt8} {input : List UInt8} (plain : c ≠ 0xff) (next : s.input = c :: input) :
    readDigit s = .ok (some c) { s with input } := by
  unfold readDigit
  refine (bind_ok (read_ok next)).trans ?_
  rw [if_neg plain]
  rfl

theorem frame_eq (payload rest : List UInt8) : frame payload ++ rest =
    36 :: (payload ++ 35 :: digitChar ((checksum payload).toNat / 16) :: digitChar ((checksum payload).toNat % 16) ::
      rest) := by
  unfold frame
  rw [hexOf_cons, List.cons_append, List.cons_append, List.append_assoc]
  rfl

/-- A packet with any two digits behind it. -/
theorem receivePacket_digits {high low : Nat} (small : high < 16) (small' : low < 16)
    (quiet : ∀ c ∈ noise, c ≠ 36) (plain : ∀ c ∈ payload, c ≠ 35) (fits : payload.length ≤ pktBufSize)
    (input : s.input = noise ++ 36 :: (payload ++ 35 :: digitChar high :: digitChar low :: rest)) :
    ∃ buf, Holds buf 0 payload ∧ receivePacket s =
      if checksum payload = UInt8.ofNat (high * 16 + low) then
        .ok (some payload.length) { s with pktBuf := buf, input := rest, output := s.output ++ [43] }
      else .ok none { s with pktBuf := buf, input := rest, output := s.output ++ [45] } := by
  obtain ⟨buf, received, holds, -⟩ :=
    receiveData_payload (digitChar high :: digitChar low :: rest) payload 0 s
      plain (by rw [Nat.zero_add]; exact fits)
  rw [Nat.zero_add] at received
  refine ⟨buf, holds, ?_⟩
  unfold receivePacket
  refine (bind_ok (get_ok s)).trans ?_
  rw [input, findStart_noise quiet]
  dsimp only
  rw [bind_ok received]
  dsimp only
  rw [bind_ok (readDigit_ok (digitChar_plain small).2.2.2.2.2.2 rfl)]
  dsimp only
  rw [bind_ok (readDigit_ok (digitChar_plain small').2.2.2.2.2.2 rfl)]
  dsimp only
  rw [getValue_digitChar small, getValue_digitChar small']
  dsimp only
  refine (bind_ok (get_ok _)).trans ?_
  rw [packet_eq holds]
  by_cases same : checksum payload = UInt8.ofNat (high * 16 + low)
  · rw [if_pos same, if_neg (not_not_intro same)]
    rfl
  · rw [if_neg same, if_pos same]
    rfl

/-- A packet is received as it was sent. -/
theorem receivePacket_frame (quiet : ∀ c ∈ noise, c ≠ 36) (plain : ∀ c ∈ payload, c ≠ 35)
    (fits : payload.length ≤ pktBufSize) (input : s.input = noise ++ (frame payload ++ rest)) :
    ∃ buf, Holds buf 0 payload ∧ receivePacket s =
      .ok (some payload.length) { s with pktBuf := buf, input := rest, output := s.output ++ [43] } := by
  rw [frame_eq] at input
  obtain ⟨buf, holds, received⟩ := receivePacket_digits (high_lt _) (low_lt _) quiet plain fits input
  rw [if_pos (whole_byte _).symm] at received
  exact ⟨buf, holds, received⟩

end Receiving

namespace Sink

/-- What is put last counts, and nothing else than the sink changes. -/
structure Lawful (sink : Sink) : Prop where
  last : ∀ pos c c' s, sink pos c (sink pos c' s) = sink pos c s
  pktBuf : ∀ pos c s, (sink pos c s).pktBuf = s.pktBuf
  input : ∀ pos c s, (sink pos c s).input = s.input
  output : ∀ pos c s, (sink pos c s).output = s.output

def putAll (sink : Sink) (pos : Nat) : List UInt8 → State → State
  | [], s => s
  | c :: rest, s => putAll sink (pos + 1) rest (sink pos c s)

variable {sink : Sink}

theorem put_ok (sink : Sink) (pos : Nat) (c : UInt8) (s : State) : sink.put pos c s = .ok () (sink pos c s) := rfl

end Sink

section Decoding

variable {sink : Sink} {rest : List UInt8}

theorem loadHex_ok (lawful : sink.Lawful) : ∀ {bytes : List UInt8} {buf pos : Nat} {s : State},
    Holds s.pktBuf buf (hexOf bytes) → loadHex sink buf pos bytes.length s = .ok () (sink.putAll pos bytes s)
  | [], _, _, _, _ => rfl
  | c :: bytes, buf, pos, s, holds => by
    rw [hexOf_cons] at holds
    have same : (sink pos c s).pktBuf = s.pktBuf := lawful.pktBuf ..
    have second : Holds (sink pos (UInt8.ofNat (c.toNat / 16 * 16)) s).pktBuf (buf + 1)
        (digitChar (c.toNat % 16) :: hexOf bytes) := (lawful.pktBuf ..).symm ▸ Holds.tail holds
    have later : Holds (sink pos c s).pktBuf (buf + 2) (hexOf bytes) := same.symm ▸ Holds.tail (Holds.tail holds)
    rw [List.length_cons]
    unfold loadHex
    rw [bind_ok (load_ok holds), getValue_digitChar (high_lt c)]
    dsimp only
    rw [bind_ok (Sink.put_ok ..), bind_ok (load_ok second), getValue_digitChar (low_lt c)]
    dsimp only
    rw [whole_byte, bind_ok (Sink.put_ok ..), lawful.last]
    exact loadHex_ok lawful later

theorem decodeHex_ok (lawful : sink.Lawful) {bytes : List UInt8} {buf : Nat} {s : State}
    (holds : Holds s.pktBuf buf (hexOf bytes)) :
    decodeHex sink buf (hexOf bytes).length bytes.length s = .ok (some ()) (sink.putAll 0 bytes s) := by
  unfold decodeHex
  rw [if_neg (not_not_intro (length_hexOf bytes)), bind_ok (loadHex_ok lawful holds)]
  rfl

theorem escape_cons (c : UInt8) (bytes : List UInt8) : escape (c :: bytes) =
    (if c = 36 ∨ c = 35 ∨ c = 125 ∨ c = 42 then [125, c ^^^ 0x20] else [c]) ++ escape bytes := rfl

theorem decodeBinary_ok (lawful : sink.Lawful) (dataLen : Nat) : ∀ {bytes : List UInt8} {buf : Nat} (pos : Nat) {s : State},
    Holds s.pktBuf buf (escape bytes) → pos + bytes.length ≤ dataLen →
      decodeBinary sink dataLen buf (escape bytes).length pos s =
        .ok (pos + bytes.length) (sink.putAll pos bytes s)
  | [], _, _, _, _, _ => rfl
  | c :: bytes, buf, pos, s, holds, room => by
    rw [escape_cons] at holds ⊢
    rw [List.length_cons] at room
    have same : (sink pos c s).pktBuf = s.pktBuf := lawful.pktBuf ..
    have space : ¬ dataLen ≤ pos := by omega
    by_cases special : c = 36 ∨ c = 35 ∨ c = 125 ∨ c = 42
    · rw [if_pos special] at holds ⊢
      have later : Holds (sink pos c s).pktBuf (buf + 2) (escape bytes) := same.symm ▸ Holds.tail (Holds.tail holds)
      have back : c ^^^ 0x20 ^^^ 0x20 = c := by rw [UInt8.xor_assoc, UInt8.xor_self, UInt8.xor_zero]
      have rest := decodeBinary_ok lawful dataLen (pos + 1) later (by omega)
      rw [List.length_append, List.length_cons, List.length_cons, List.length_nil, Nat.zero_add,
        Nat.add_comm _ (escape bytes).length]
      unfold decodeBinary
      rw [if_neg space, bind_ok (load_ok holds), if_pos rfl]
      dsimp only
      rw [bind_ok (load_ok (Holds.tail holds)), bind_ok (Sink.put_ok ..), back, rest, List.length_cons,
        Nat.add_assoc, Nat.add_comm 1]
      rfl
    · rw [if_neg special] at holds ⊢
      have plain : c ≠ 125 := fun is => special (.inr (.inr (.inl is)))
      have later : Holds (sink pos c s).pktBuf (buf + 1) (escape bytes) := same.symm ▸ Holds.tail holds
      have rest := decodeBinary_ok lawful dataLen (pos + 1) later (by omega)
      rw [List.length_append, List.length_cons, List.length_nil, Nat.zero_add, Nat.add_comm]
      unfold decodeBinary
      rw [if_neg space, bind_ok (load_ok holds), if_neg plain, bind_ok (Sink.put_ok ..), rest, List.length_cons,
        Nat.add_assoc, Nat.add_comm 1]
      rfl

end Decoding

end MPStuBS.DebugStub
