import MPStuBS.DebugServer

/-! Sessions of the remote debugger: `handle` does for the packets on the line what the server does for their requests. -/
namespace MPStuBS.DebugStub

section Commands

variable {cores : Cores} {s : State} {ack : UInt8} {input rest : List UInt8} {pos pktLen : Nat}

theorem expectSeparator_ok {c : UInt8} (holds : Holds s.pktBuf pos (c :: rest)) :
    expectSeparator pos c s = .ok (pos + 1) s := by
  unfold expectSeparator
  rw [bind_ok (load_ok holds), if_neg (not_not_intro rfl)]
  rfl

theorem remaining (holds : Holds s.pktBuf pos rest) (whole : pktLen = pos + rest.length) :
    (pktLen + 2 ^ 64 - pos) % 2 ^ 64 = rest.length := by
  have fits := holds.fits
  unfold pktBufSize at fits
  omega

theorem ends_separator {c : UInt8} (separator : c = 44 ∨ c = 58 ∨ c = 61) : Ends (c :: rest) := by
  intro b first
  obtain rfl : c = b := Option.some.inj first
  rcases separator with rfl | rfl | rfl <;> decide

theorem ends_nil : Ends [] := fun _ none => nomatch none

/-- The number of an argument, the separator behind it, and what follows. -/
theorem argument_ok (pktLen : Nat) {n : Nat} {c : UInt8} (separator : c = 44 ∨ c = 58 ∨ c = 61)
    (holds : Holds s.pktBuf pos (numeral 16 n ++ c :: rest)) (whole : pktLen = pos + (numeral 16 n ++ c :: rest).length) :
    expectInteger pktLen pos s = .ok (BitVec.ofNat 64 n, pos + (numeral 16 n).length) s ∧
      expectSeparator (pos + (numeral 16 n).length) c s = .ok (pos + (numeral 16 n).length + 1) s ∧
      Holds s.pktBuf (pos + (numeral 16 n).length + 1) rest ∧ pktLen = pos + (numeral 16 n).length + 1 + rest.length := by
  have behind := holds.drop
  refine ⟨expectInteger_numeral (ends_separator separator) holds whole, expectSeparator_ok behind, behind.tail, ?_⟩
  rw [whole, List.length_append, List.length_cons]
  omega

/-- A number at the end of a packet. -/
theorem number_ok (pktLen : Nat) {n : Nat} (small : n < 2 ^ 64) (holds : Holds s.pktBuf pos (numeral 16 n))
    (whole : pktLen = pos + (numeral 16 n).length) :
    ∃ value next, expectInteger pktLen pos s = .ok (value, next) s ∧ value.toNat = n := by
  rw [← List.append_nil (numeral 16 n)] at holds whole
  refine ⟨_, _, expectInteger_numeral ends_nil holds whole, ?_⟩
  rw [BitVec.toNat_ofNat, Nat.mod_eq_of_lt small]

theorem ok_answer (acked : s.input = ack :: input) :
    (do sendOkPacket; return false : Stub Bool) s = .ok false { s with output := s.output ++ frame ok, input } :=
  (bind_ok (sendData_ok acked)).trans rfl

theorem serve_ok {s' : State} (done : command cores pktLen s = .ok false s') : serve cores pktLen s = .ok false s' := by
  unfold serve
  rw [done]

theorem serve_error (failed : command cores pktLen s = .error .error s) (acked : s.input = ack :: input) :
    ∃ buf, serve cores pktLen s = .ok false { s with pktBuf := buf, output := s.output ++ frame error, input } := by
  obtain ⟨buf, sent⟩ := sendCode_ok 69 0 acked
  refine ⟨buf, ?_⟩
  unfold serve
  rw [failed]
  exact (bind_ok sent).trans rfl

theorem command_dispatch (cores : Cores) (pktLen : Nat) {c : UInt8} (holds : Holds s.pktBuf 0 (c :: rest)) :
    command cores pktLen s =
      dispatch cores pktLen (s.target.cpuOps (if c.toNat < cpuOpsSize then c.toNat else 0)) c s := by
  unfold command
  rw [bind_ok (load_ok holds), bind_ok (get_ok s)]

/-- What is done for a request. -/
def Request.handler (cores : Cores) (t : Target) (r : Request) : Stub Bool :=
  match r with
  | reason => DebugStub.reason
  | read .. => readCommand r.payload.length
  | write _ _ binary => writeCommand r.payload.length (!binary)
  | registers => sendRegister cores registerCount (t.cpuOps (103 : UInt8).toNat)
  | setRegisters bytes => storeRegister cores registerCount (t.cpuOps (71 : UInt8).toNat) 1 (hexOf bytes).length
  | register _ => readRegister cores r.payload.length (t.cpuOps (112 : UInt8).toNat)
  | setRegister .. => writeRegister cores r.payload.length (t.cpuOps (80 : UInt8).toNat)
  | core .. => setCore r.payload.length
  | alive _ => threadAlive cores r.payload.length
  | other .. => unsupported

/-- Each letter stands for its command. -/
theorem command_request (cores : Cores) (r : Request)
    (unknown : ∀ letter arguments, r = .other letter arguments → letter ∉ Request.letters) (holds : Holds s.pktBuf 0 r.payload) :
    command cores r.payload.length s = r.handler cores s.target s := by
  cases r with
  | other letter arguments =>
    have none := unknown letter arguments rfl
    unfold Request.letters at none
    simp only [List.mem_cons, List.not_mem_nil, or_false, not_or] at none
    rw [command_dispatch cores _ holds]
    unfold dispatch
    simp only [none, if_false]
    rfl
  | write addr bytes binary =>
    rw [command_dispatch cores _ holds]
    unfold dispatch
    cases binary <;> simp +decide only [if_false, if_true] <;> rfl
  | _ =>
    rw [command_dispatch cores _ holds]
    unfold dispatch
    simp +decide only [if_false, if_true]
    rfl

theorem reason_ok (acked : s.input = ack :: input) :
    ∃ buf, reason s = .ok false { s with pktBuf := buf, output := s.output ++ frame (83 :: hexOf [0]), input } := by
  obtain ⟨buf, sent⟩ := sendCode_ok 83 0 acked
  exact ⟨buf, (bind_ok sent).trans rfl⟩

theorem readCommand_eq {addr : BitVec 64} {length : Nat} (small : length < 2 ^ 64)
    (holds : Holds s.pktBuf 0 (Request.payload (.read addr length))) :
    readCommand (Request.payload (.read addr length)).length s = (do
      let size ← orError (← memRead addr length)
      sendPacket size
      return false : Stub Bool) s := by
  obtain ⟨number, separator, behind, whole⟩ := argument_ok (Request.payload (.read addr length)).length (.inl rfl)
    holds.tail (by rw [Request.payload, List.length_cons, Nat.zero_add, Nat.add_comm])
  rw [← List.append_nil (numeral 16 length)] at behind whole
  have count := expectInteger_numeral ends_nil behind whole
  rw [Nat.zero_add] at number separator count
  unfold readCommand
  rw [bind_ok number]
  dsimp only
  rw [bind_ok separator, bind_ok count]
  dsimp only
  rw [BitVec.ofNat_toNat, BitVec.setWidth_eq, BitVec.toNat_ofNat, Nat.mod_eq_of_lt small]

theorem writeCommand_eq {addr : BitVec 64} {bytes : List UInt8} {binary : Bool}
    (holds : Holds s.pktBuf 0 (Request.payload (.write addr bytes binary))) :
    ∃ ptr, Holds s.pktBuf ptr (Request.coded bytes binary) ∧
      writeCommand (Request.payload (.write addr bytes binary)).length (!binary) s = (do
        orError (← memWrite ptr (Request.coded bytes binary).length addr bytes.length (!binary))
        sendOkPacket
        return false : Stub Bool) s := by
  obtain ⟨number, separator, behind, whole⟩ := argument_ok (Request.payload (.write addr bytes binary)).length (.inl rfl)
    holds.tail (by rw [Request.payload, List.length_cons, Nat.zero_add, Nat.add_comm])
  obtain ⟨count, separator', code, whole'⟩ := argument_ok _ (.inr (.inl rfl)) behind whole
  have few : bytes.length < 2 ^ 64 := by
    have fits := code.fits
    have length := length_le_coded bytes binary
    unfold pktBufSize at fits
    omega
  refine ⟨_, code, ?_⟩
  have left := remaining code whole'
  rw [Nat.zero_add] at number separator count separator' left code
  unfold writeCommand
  rw [bind_ok number]
  dsimp only
  rw [bind_ok separator, bind_ok count]
  dsimp only
  rw [bind_ok separator', left, Nat.zero_add, BitVec.ofNat_toNat, BitVec.setWidth_eq, BitVec.toNat_ofNat, Nat.mod_eq_of_lt few]

theorem sendRegister_ok (ready : s.target.Ready cores) (letter : UInt8) (reg : Nat) (acked : s.input = ack :: input) :
    ∃ buf, sendRegister cores reg (s.target.cpuOps letter.toNat) s = .ok false { s with
      target := s.target.passed (s.target.chosen cores letter reg), pktBuf := buf, input,
      output := s.output ++ frame (hexOf (s.target.register (s.target.chosen cores letter reg))) } := by
  have count : (s.target.register (s.target.chosen cores letter reg)).length = (place reg).2 := by
    unfold Target.register
    rw [List.length_map, List.length_range]
    rfl
  have few := place_size_le reg
  obtain ⟨buf, encoded, text, -⟩ := encodeHex_ok 0 pktBufSize (s.target.register (s.target.chosen cores letter reg))
    { s with target := s.target.passed (s.target.chosen cores letter reg) }
    (by rw [count]; unfold pktBufSize; omega) (Nat.le_of_eq (Nat.zero_add _))
  have sent := sendPacket_ok (s := { s with
    target := s.target.passed (s.target.chosen cores letter reg), pktBuf := buf }) text acked
  rw [length_hexOf] at sent
  refine ⟨buf, ?_⟩
  unfold sendRegister
  rw [bind_ok (getRegister_ok ready letter reg)]
  refine (bind_ok (get_ok s)).trans ?_
  exact (bind_ok encoded).trans ((bind_ok sent).trans rfl)

theorem storeRegister_ok (ready : s.target.Ready cores) (letter : UInt8) (reg : Nat) {bytes : List UInt8}
    (holds : Holds s.pktBuf pos (hexOf bytes)) (acked : s.input = ack :: input) :
    storeRegister cores reg (s.target.cpuOps letter.toNat) pos (hexOf bytes).length s =
      let r := s.target.chosen cores letter reg
      if bytes.length = r.size then
        .ok false { s with target := s.target.written r bytes, input, output := s.output ++ frame ok }
      else .error .error s := by
  unfold storeRegister
  rw [bind_ok (getRegister_ok ready letter reg)]
  dsimp only
  split
  · rename_i same
    have decoded := decodeHex_ok (s.target.chosen cores letter reg).sink_lawful holds
    rw [Register.sink_putAll, same] at decoded
    rw [bind_ok decoded]
    exact ok_answer (s := ⟨s.target.written _ bytes, s.pktBuf, s.data, s.input, s.output⟩) acked
  · rename_i other
    have none : decodeHex (s.target.chosen cores letter reg).sink pos (hexOf bytes).length
        (s.target.chosen cores letter reg).size s = .ok none s := by
      unfold decodeHex
      rw [length_hexOf, if_pos (by omega)]
      rfl
    rw [bind_ok none]
    exact bind_error rfl

theorem readRegister_eq (cpu : Int) {n : Nat} (small : n < 2 ^ 64) (holds : Holds s.pktBuf 0 (Request.payload (.register n))) :
    readRegister cores (Request.payload (.register n)).length cpu s =
      if n < registerCount then sendRegister cores n cpu s else .error .error s := by
  obtain ⟨value, next, number, rfl⟩ := number_ok (Request.payload (.register n)).length small holds.tail
    (by rw [Request.payload, List.length_cons, Nat.zero_add, Nat.add_comm])
  rw [Nat.zero_add] at number
  unfold readRegister
  rw [bind_ok number]
  dsimp only
  by_cases inside : value.toNat < registerCount
  · rw [if_pos inside, if_neg (Nat.not_le.mpr inside)]
  · rw [if_neg inside, if_pos (Nat.le_of_not_lt inside)]
    exact bind_error rfl

theorem writeRegister_eq (cores : Cores) (cpu : Int) {n : Nat} {bytes : List UInt8} (small : n < 2 ^ 64)
    (holds : Holds s.pktBuf 0 (Request.payload (.setRegister n bytes))) :
    ∃ ptr, Holds s.pktBuf ptr (hexOf bytes) ∧
      writeRegister cores (Request.payload (.setRegister n bytes)).length cpu s =
        if n < registerCount then storeRegister cores n cpu ptr (hexOf bytes).length s else .error .error s := by
  obtain ⟨number, separator, behind, whole⟩ := argument_ok (Request.payload (.setRegister n bytes)).length (.inr (.inr rfl))
    holds.tail (by rw [Request.payload, List.length_cons, Nat.zero_add, Nat.add_comm])
  refine ⟨_, behind, ?_⟩
  have left := remaining behind whole
  rw [Nat.zero_add] at number separator left
  unfold writeRegister
  rw [bind_ok number]
  dsimp only
  rw [bind_ok separator, BitVec.toNat_ofNat, Nat.mod_eq_of_lt small, left]
  by_cases inside : n < registerCount
  · rw [if_pos inside, if_neg (Nat.not_le.mpr inside), Nat.zero_add]
  · rw [if_neg inside, if_pos (Nat.le_of_not_lt inside)]
    exact bind_error rfl

theorem int8_core {n : Nat} (small : n ≤ coreMax) : int8 (BitVec.ofNat 64 n) = n := by
  have every : ∀ i : Fin 9, int8 (BitVec.ofNat 64 i) = i := by decide
  exact every ⟨n, Nat.lt_succ_of_le small⟩

theorem setCore_eq {letter : UInt8} {n : Nat} (small : n ≤ coreMax)
    (holds : Holds s.pktBuf 0 (Request.payload (.core letter n))) (acked : s.input = ack :: input) :
    setCore (Request.payload (.core letter n)).length s =
      if letter.toNat < cpuOpsSize then
        .ok false { s with
          target := { s.target with cpuOps := Function.update s.target.cpuOps letter.toNat n }, input,
          output := s.output ++ frame ok }
      else .error .error s := by
  have second := holds.tail
  have third : Holds s.pktBuf 2 (numeral 16 n ++ []) := by
    rw [List.append_nil]
    exact second.tail
  have number : expectInteger (Request.payload (.core letter n)).length 2 s =
      .ok (BitVec.ofNat 64 n, 2 + (numeral 16 n).length) s := expectInteger_numeral ends_nil third (by
    rw [Request.payload, List.length_cons, List.length_cons, List.append_nil]
    omega)
  unfold setCore
  rw [bind_ok (load_ok second)]
  by_cases inside : letter.toNat < cpuOpsSize
  · rw [if_pos inside, if_neg (Nat.not_le.mpr inside)]
    refine (bind_ok number).trans ?_
    dsimp only
    rw [int8_core small]
    exact ok_answer (s := ⟨{ s.target with cpuOps := Function.update s.target.cpuOps letter.toNat n }, s.pktBuf, s.data, s.input,
      s.output⟩) acked
  · rw [if_neg inside, if_pos (Nat.le_of_not_lt inside)]
    exact bind_error rfl

theorem threadAlive_eq {n : Nat} (small : n < 2 ^ 64) (holds : Holds s.pktBuf 0 (Request.payload (.alive n)))
    (acked : s.input = ack :: input) : threadAlive cores (Request.payload (.alive n)).length s =
      if n ≤ cores.online then .ok false { s with input, output := s.output ++ frame ok } else .error .error s := by
  obtain ⟨value, next, number, rfl⟩ := number_ok (Request.payload (.alive n)).length small holds.tail
    (by rw [Request.payload, List.length_cons, Nat.zero_add, Nat.add_comm])
  rw [Nat.zero_add] at number
  unfold threadAlive
  rw [bind_ok number]
  dsimp only
  by_cases inside : value.toNat ≤ cores.online
  · rw [if_pos inside, if_neg (Nat.not_lt.mpr inside)]
    exact ok_answer acked
  · rw [if_neg inside, if_pos (Nat.lt_of_not_le inside)]
    exact bind_error rfl

/-- A request is answered as the server does, and changes the target so. -/
def Served (cores : Cores) (r : Request) (s : State) (input : List UInt8) : Prop :=
  ∃ buf data, serve cores r.payload.length s = .ok false
    ⟨r.effect cores s.target, buf, data, input, s.output ++ frame (r.answer cores s.target)⟩

theorem served_error {r : Request} (failed : command cores r.payload.length s = .error .error s)
    (acked : s.input = ack :: input) (effect : r.effect cores s.target = s.target)
    (answer : r.answer cores s.target = error) : Served cores r s input := by
  obtain ⟨buf, answered⟩ := serve_error failed acked
  refine ⟨buf, s.data, ?_⟩
  rw [effect, answer]
  exact answered

theorem serve_reason (holds : Holds s.pktBuf 0 (Request.payload .reason)) (acked : s.input = ack :: input) :
    Served cores .reason s input := by
  obtain ⟨buf, answered⟩ := reason_ok acked
  exact ⟨buf, s.data, serve_ok ((command_request cores .reason nofun holds).trans answered)⟩

theorem serve_read {addr : BitVec 64} {length : Nat} (small : length < 2 ^ 64)
    (holds : Holds s.pktBuf 0 (Request.payload (.read addr length))) (acked : s.input = ack :: input) :
    Served cores (.read addr length) s input := by
  have handled := (command_request cores (.read addr length) nofun holds).trans (readCommand_eq small holds)
  by_cases few : length ≤ dataSize
  · obtain ⟨buf, ran, text⟩ := memRead_ok s addr few
    have sent := sendPacket_ok (s := { s with pktBuf := buf }) text acked
    refine ⟨buf, s.data, serve_ok (handled.trans ?_)⟩
    unfold Request.answer
    dsimp only
    rw [bind_ok ran, if_pos few]
    exact (bind_ok sent).trans rfl
  · refine served_error ?_ acked rfl (if_neg few)
    rw [handled, bind_ok (memRead_long (Nat.lt_of_not_le few))]
    exact bind_error rfl

theorem serve_write {addr : BitVec 64} {bytes : List UInt8} {binary : Bool}
    (holds : Holds s.pktBuf 0 (Request.payload (.write addr bytes binary))) (acked : s.input = ack :: input) :
    Served cores (.write addr bytes binary) s input := by
  obtain ⟨ptr, code, ran⟩ := writeCommand_eq holds
  have handled := (command_request cores (.write addr bytes binary) nofun holds).trans ran
  by_cases few : bytes.length ≤ dataSize
  · obtain ⟨data, written⟩ := memWrite_ok addr binary code few
    refine ⟨s.pktBuf, data, serve_ok (handled.trans ?_)⟩
    unfold Request.effect Request.answer
    dsimp only
    rw [bind_ok written, if_pos few, if_pos few]
    exact ok_answer (s := ⟨{ s.target with memory := overwritten s.target.memory addr bytes }, s.pktBuf, data, s.input,
      s.output⟩) acked
  · refine served_error ?_ acked (if_neg few) (if_neg few)
    rw [handled, bind_ok (memWrite_long _ _ (Nat.lt_of_not_le few))]
    exact bind_error rfl

theorem serve_registers (ready : s.target.Ready cores) (holds : Holds s.pktBuf 0 (Request.payload .registers))
    (acked : s.input = ack :: input) : Served cores .registers s input := by
  obtain ⟨buf, sent⟩ := sendRegister_ok ready 103 registerCount acked
  exact ⟨buf, s.data, serve_ok ((command_request cores .registers nofun holds).trans sent)⟩

theorem serve_register {n : Nat} (small : n < 2 ^ 64) (ready : s.target.Ready cores)
    (holds : Holds s.pktBuf 0 (Request.payload (.register n))) (acked : s.input = ack :: input) :
    Served cores (.register n) s input := by
  have handled := (command_request cores (.register n) nofun holds).trans (readRegister_eq _ small holds)
  by_cases inside : n < registerCount
  · rw [if_pos inside] at handled
    obtain ⟨buf, sent⟩ := sendRegister_ok ready 112 n acked
    refine ⟨buf, s.data, serve_ok (handled.trans (sent.trans ?_))⟩
    unfold Request.effect Request.answer
    dsimp only
    rw [if_pos inside, if_pos inside]
  · rw [if_neg inside] at handled
    exact served_error handled acked (if_neg inside) (if_neg inside)

theorem serve_setRegisters {bytes : List UInt8} (ready : s.target.Ready cores)
    (holds : Holds s.pktBuf 0 (Request.payload (.setRegisters bytes))) (acked : s.input = ack :: input) :
    Served cores (.setRegisters bytes) s input := by
  have handled := command_request cores (.setRegisters bytes) nofun holds
  have stored := storeRegister_ok ready 71 registerCount holds.tail acked
  rw [Nat.zero_add] at stored
  by_cases same : bytes.length = (s.target.chosen cores 71 registerCount).size
  · dsimp only at stored
    rw [if_pos same] at stored
    refine ⟨s.pktBuf, s.data, serve_ok (handled.trans (stored.trans ?_))⟩
    unfold Request.effect Request.answer
    dsimp only
    rw [if_pos same, if_pos same]
  · exact served_error (handled.trans (stored.trans (if_neg same))) acked (if_neg same) (if_neg same)

theorem serve_setRegister {n : Nat} {bytes : List UInt8} (small : n < 2 ^ 64) (ready : s.target.Ready cores)
    (holds : Holds s.pktBuf 0 (Request.payload (.setRegister n bytes))) (acked : s.input = ack :: input) :
    Served cores (.setRegister n bytes) s input := by
  have handled := command_request cores (.setRegister n bytes) nofun holds
  obtain ⟨ptr, code, ran⟩ := writeRegister_eq cores (s.target.cpuOps (80 : UInt8).toNat) small holds
  by_cases inside : n < registerCount
  · have stored := storeRegister_ok ready 80 n code acked
    rw [if_pos inside] at ran
    by_cases same : bytes.length = (s.target.chosen cores 80 n).size
    · dsimp only at stored
      rw [if_pos same] at stored
      refine ⟨s.pktBuf, s.data, serve_ok (handled.trans (ran.trans (stored.trans ?_)))⟩
      unfold Request.effect Request.answer
      dsimp only
      rw [if_pos ⟨inside, same⟩, if_pos ⟨inside, same⟩]
    · have other : ¬(n < registerCount ∧ bytes.length = (s.target.chosen cores 80 n).size) := fun both => same both.2
      exact served_error (handled.trans (ran.trans (stored.trans (if_neg same)))) acked (if_neg other) (if_neg other)
  · rw [if_neg inside] at ran
    have other : ¬(n < registerCount ∧ bytes.length = (s.target.chosen cores 80 n).size) := fun both => inside both.1
    exact served_error (handled.trans ran) acked (if_neg other) (if_neg other)

theorem serve_core {letter : UInt8} {n : Nat} (small : n ≤ coreMax)
    (holds : Holds s.pktBuf 0 (Request.payload (.core letter n))) (acked : s.input = ack :: input) :
    Served cores (.core letter n) s input := by
  have handled := (command_request cores (.core letter n) nofun holds).trans (setCore_eq small holds acked)
  by_cases inside : letter.toNat < cpuOpsSize
  · rw [if_pos inside] at handled
    refine ⟨s.pktBuf, s.data, serve_ok (handled.trans ?_)⟩
    unfold Request.effect Request.answer
    dsimp only
    rw [if_pos inside, if_pos inside]
  · rw [if_neg inside] at handled
    exact served_error handled acked (if_neg inside) (if_neg inside)

theorem serve_alive {n : Nat} (small : n < 2 ^ 64) (holds : Holds s.pktBuf 0 (Request.payload (.alive n)))
    (acked : s.input = ack :: input) : Served cores (.alive n) s input := by
  have handled := (command_request cores (.alive n) nofun holds).trans (threadAlive_eq small holds acked)
  by_cases inside : n ≤ cores.online
  · rw [if_pos inside] at handled
    refine ⟨s.pktBuf, s.data, serve_ok (handled.trans ?_)⟩
    unfold Request.answer
    dsimp only
    rw [if_pos inside]
    rfl
  · rw [if_neg inside] at handled
    exact served_error handled acked rfl (if_neg inside)

theorem serve_other {letter : UInt8} {arguments : List UInt8} (unknown : letter ∉ Request.letters)
    (holds : Holds s.pktBuf 0 (Request.payload (.other letter arguments))) (acked : s.input = ack :: input) :
    Served cores (.other letter arguments) s input := by
  have handled := command_request cores (.other letter arguments)
    (fun _ _ same => by obtain ⟨rfl, -⟩ := Request.other.inj same; exact unknown) holds
  exact ⟨s.pktBuf, s.data, serve_ok (handled.trans ((bind_ok (sendData_ok acked)).trans rfl))⟩

theorem serve_request (cores : Cores) (r : Request) (sendable : r.Sendable) (ready : s.target.Ready cores)
    (holds : Holds s.pktBuf 0 r.payload) (acked : s.input = ack :: input) : Served cores r s input := by
  cases r with
  | reason => exact serve_reason holds acked
  | read addr length => exact serve_read sendable.2 holds acked
  | write addr bytes binary => exact serve_write holds acked
  | registers => exact serve_registers ready holds acked
  | setRegisters bytes => exact serve_setRegisters ready holds acked
  | register n => exact serve_register sendable.2 ready holds acked
  | setRegister n bytes => exact serve_setRegister sendable.2 ready holds acked
  | core letter n => exact serve_core sendable.2.2 holds acked
  | alive n => exact serve_alive sendable.2 holds acked
  | other letter arguments => exact serve_other sendable.2.1 holds acked

end Commands

section Sessions

/-- A request on the line, with what comes before its packet and the byte that acknowledges the answer. -/
structure Message where
  noise : List UInt8
  request : Request
  ack : UInt8

namespace Message

def bytes (m : Message) : List UInt8 := m.noise ++ (frame m.request.payload ++ [m.ack])

def Sendable (m : Message) : Prop := (∀ c ∈ m.noise, c ≠ 36) ∧ m.request.Sendable

end Message

/-- The target after the requests. -/
def effects (cores : Cores) (t : Target) (messages : List Message) : Target :=
  messages.foldl (fun t m => m.request.effect cores t) t

/-- What is written to the line: each packet is acknowledged and answered. -/
def replies (cores : Cores) : Target → List Message → List UInt8
  | _, [] => []
  | t, m :: messages => 43 :: (frame (m.request.answer cores t) ++ replies cores (m.request.effect cores t) messages)

theorem effect_ready {cores : Cores} {t : Target} {r : Request} (sendable : r.Sendable) (ready : t.Ready cores) :
    (r.effect cores t).Ready cores := by
  refine ⟨ready.1, fun i => ?_⟩
  cases r with
  | core letter n =>
    unfold Request.effect
    dsimp only
    split
    · dsimp only
      rcases eq_or_ne i letter.toNat with rfl | other
      · rw [Function.update_self]
        exact Int.ofNat_le.mpr sendable.2.2
      · rw [Function.update_of_ne other]
        exact ready.2 i
    · exact ready.2 i
  | _ =>
    unfold Request.effect
    dsimp only
    repeat' split
    all_goals simpa using ready.2 i

theorem hexOf_no_end (bytes : List UInt8) : ∀ c ∈ hexOf bytes, c ≠ 35 := by
  intro c member
  obtain ⟨d, small, rfl⟩ := hexOf_plain bytes c member
  exact (digitChar_plain small).2.1

theorem numeral_plain (n : Nat) : ∀ c ∈ numeral 16 n, c ≠ 35 := by
  intro c member
  obtain ⟨d, small, rfl⟩ := (numeral_spec (by decide) (by decide) n).digits c member
  exact (digitChar_plain small).2.1

theorem coded_plain (bytes : List UInt8) (binary : Bool) : ∀ c ∈ Request.coded bytes binary, c ≠ 35 := by
  intro c member
  cases binary with
  | false => exact hexOf_no_end bytes c member
  | true =>
    obtain ⟨b, -, inside⟩ := List.mem_flatMap.mp member
    split at inside
    · rename_i special
      rcases special with rfl | rfl | rfl | rfl
      all_goals
        simp only [List.mem_cons, List.not_mem_nil, or_false] at inside
        rcases inside with rfl | rfl <;> decide
    · rename_i plain
      obtain rfl := List.mem_singleton.mp inside
      exact fun is => plain (.inr (.inl is))

theorem payload_plain (r : Request) (sendable : r.Sendable) : ∀ c ∈ r.payload, c ≠ 35 := by
  intro c member
  cases r with
  | reason =>
    obtain rfl := List.mem_singleton.mp member
    decide
  | read addr length =>
    rcases List.mem_cons.mp member with rfl | inside
    · decide
    rcases List.mem_append.mp inside with first | inside
    · exact numeral_plain _ c first
    rcases List.mem_cons.mp inside with rfl | last
    · decide
    · exact numeral_plain _ c last
  | write addr bytes binary =>
    rcases List.mem_cons.mp member with rfl | inside
    · cases binary <;> decide
    rcases List.mem_append.mp inside with first | inside
    · exact numeral_plain _ c first
    rcases List.mem_cons.mp inside with rfl | inside
    · decide
    rcases List.mem_append.mp inside with second | inside
    · exact numeral_plain _ c second
    rcases List.mem_cons.mp inside with rfl | last
    · decide
    · exact coded_plain _ _ c last
  | registers =>
    obtain rfl := List.mem_singleton.mp member
    decide
  | setRegisters bytes =>
    rcases List.mem_cons.mp member with rfl | inside
    · decide
    · exact hexOf_no_end _ c inside
  | register n =>
    rcases List.mem_cons.mp member with rfl | inside
    · decide
    · exact numeral_plain _ c inside
  | setRegister n bytes =>
    rcases List.mem_cons.mp member with rfl | inside
    · decide
    rcases List.mem_append.mp inside with first | inside
    · exact numeral_plain _ c first
    rcases List.mem_cons.mp inside with rfl | last
    · decide
    · exact hexOf_no_end _ c last
  | core letter n =>
    rcases List.mem_cons.mp member with rfl | inside
    · decide
    rcases List.mem_cons.mp inside with rfl | last
    · exact sendable.2.1
    · exact numeral_plain _ c last
  | alive n =>
    rcases List.mem_cons.mp member with rfl | inside
    · decide
    · exact numeral_plain _ c inside
  | other letter arguments =>
    rintro rfl
    exact sendable.2.2 member

theorem payload_some (r : Request) : ∃ n, r.payload.length = n + 1 := by
  cases r <;> exact ⟨_, rfl⟩

variable {s : State} {k : Nat} {rest : List UInt8}

/-- A message in front of others. -/
theorem serveAll_message (cores : Cores) (m : Message) (sendable : m.Sendable) (ready : s.target.Ready cores)
    (input : s.input = m.bytes ++ rest) :
    ∃ buf data, serveAll cores (k + 1) s = serveAll cores k ⟨m.request.effect cores s.target, buf, data, rest,
      s.output ++ 43 :: frame (m.request.answer cores s.target)⟩ := by
  have line : s.input = m.noise ++ (frame m.request.payload ++ m.ack :: rest) := by
    rw [input, Message.bytes, List.append_assoc, List.append_assoc]
    rfl
  obtain ⟨buf, holds, received⟩ := receivePacket_frame sendable.1 (payload_plain _ sendable.2) sendable.2.1 line
  obtain ⟨buf', data, served⟩ := serve_request (s := ⟨s.target, buf, s.data, m.ack :: rest, s.output ++ [43]⟩) cores
    m.request sendable.2 ready holds rfl
  obtain ⟨n, length⟩ := payload_some m.request
  rw [length] at received served
  refine ⟨buf', data, ?_⟩
  rw [serveAll, bind_ok received]
  refine (bind_ok served).trans ?_
  rw [if_neg Bool.false_ne_true]
  dsimp only
  rw [List.append_assoc]
  rfl

/-- Whatever is between the packets, the requests are served in their order. -/
theorem serveAll_messages (cores : Cores) : ∀ (messages : List Message) (s : State), (∀ m ∈ messages, m.Sendable) →
    s.target.Ready cores → s.input = messages.flatMap Message.bytes ++ rest →
    (effects cores s.target messages).Ready cores ∧ ∃ buf data, serveAll cores (messages.length + k) s = serveAll cores k
      ⟨effects cores s.target messages, buf, data, rest, s.output ++ replies cores s.target messages⟩ := by
  intro messages
  induction messages with
  | nil =>
    intro s _ ready input
    refine ⟨ready, s.pktBuf, s.data, ?_⟩
    rw [replies, List.append_nil, List.length_nil, Nat.zero_add, ← show s.input = rest from input]
    rfl
  | cons m messages ih =>
    intro s sendable ready input
    rw [List.flatMap_cons, List.append_assoc] at input
    obtain ⟨buf, data, first⟩ := serveAll_message (k := messages.length + k) cores m (sendable m (.head _)) ready input
    obtain ⟨ready', buf', data', later⟩ := ih ⟨m.request.effect cores s.target, buf, data,
      messages.flatMap Message.bytes ++ rest, s.output ++ 43 :: frame (m.request.answer cores s.target)⟩
      (fun m member => sendable m (.tail _ member)) (effect_ready (sendable m (.head _)).2 ready) rfl
    refine ⟨ready', buf', data', ?_⟩
    rw [List.length_cons, Nat.add_right_comm, first, later, replies, List.append_assoc]
    rfl

theorem eflags_register {cores : Cores} (small : cores.id < coreMax) :
    getRegister cores DebugState.offsetSegment 0 s = .ok ⟨cores.id, 136, 4, true⟩ s := by
  have core : ¬ coreMax ≤ cores.selected 0 := Nat.not_le.mpr small
  unfold getRegister
  rw [if_neg core]
  rfl

theorem sysContinue_ok {cores : Cores} (small : cores.id < coreMax) :
    sysContinue cores s = .ok () s :=
  (bind_ok (eflags_register small)).trans rfl

theorem sysStep_ok {cores : Cores} (small : cores.id < coreMax) :
    sysStep cores s = .ok () s :=
  (bind_ok (eflags_register small)).trans rfl

theorem dispatch_resume {cores : Cores} (small : cores.id < coreMax) (step : Bool) (pktLen : Nat) (cpu : Int) :
    dispatch cores pktLen cpu (if step then 115 else 99) s = .ok true s := by
  unfold dispatch
  cases step with
  | false =>
    simp +decide only [if_false, if_true]
    exact (bind_ok (sysContinue_ok small)).trans rfl
  | true =>
    simp +decide only [if_false, if_true]
    exact (bind_ok (sysStep_ok small)).trans rfl

/-- The last packet of a session lets the program go on. -/
theorem serveAll_resume {cores : Cores} (small : cores.id < coreMax) {noise : List UInt8} (quiet : ∀ c ∈ noise, c ≠ 36)
    (step : Bool) (input : s.input = noise ++ (frame [if step then 115 else 99] ++ rest)) :
    ∃ buf, serveAll cores (k + 1) s = .ok () ⟨s.target, buf, s.data, rest, s.output ++ [43]⟩ := by
  have plain : ∀ c ∈ [if step then (115 : UInt8) else 99], c ≠ 35 := by
    cases step <;> exact List.forall_mem_singleton.mpr (by decide)
  obtain ⟨buf, holds, received⟩ := receivePacket_frame quiet plain (Nat.le_of_ble_eq_true rfl) input
  refine ⟨buf, ?_⟩
  have dispatched := command_dispatch (s := ⟨s.target, buf, s.data, rest, s.output ++ [43]⟩) cores 1 holds
  rw [dispatch_resume small] at dispatched
  have served : serve cores 1 ⟨s.target, buf, s.data, rest, s.output ++ [43]⟩ =
      .ok true ⟨s.target, buf, s.data, rest, s.output ++ [43]⟩ := by
    unfold serve
    rw [dispatched]
  rw [serveAll, bind_ok received]
  exact (bind_ok served).trans rfl

/-- A session of the debugger: after the signal, each request is answered as the server does, whatever bytes are
between the packets, until the program goes on with what the requests left. -/
theorem handle_serves (cores : Cores) (messages : List Message) (sendable : ∀ m ∈ messages, m.Sendable)
    {noise : List UInt8} (quiet : ∀ c ∈ noise, c ≠ 36) (step : Bool) {ack : UInt8} {fuel : Nat}
    (ready : s.target.Ready cores)
    (input : s.input = ack :: (messages.flatMap Message.bytes ++ (noise ++ (frame [if step then 115 else 99] ++ rest))))
    (enough : messages.length < fuel) :
    ∃ buf data, handle cores fuel s = .ok ()
      ⟨effects cores s.target messages, buf, data, rest,
        s.output ++ (frame (Request.reason.answer cores s.target) ++ (replies cores s.target messages ++ [43]))⟩ := by
  obtain ⟨left, rfl⟩ := Nat.exists_eq_add_of_lt enough
  obtain ⟨buf, sent⟩ := sendCode_ok 83 0 input
  obtain ⟨ready', buf', data, served⟩ := serveAll_messages (k := left + 1) cores messages
    ⟨s.target, buf, s.data, messages.flatMap Message.bytes ++ (noise ++ (frame [if step then 115 else 99] ++ rest)),
      s.output ++ frame (83 :: hexOf [0])⟩ sendable ready rfl
  obtain ⟨buf'', ended⟩ := serveAll_resume (k := left) ready.1 quiet step
    (s := ⟨effects cores s.target messages, buf', data, noise ++ (frame [if step then 115 else 99] ++ rest),
      s.output ++ frame (83 :: hexOf [0]) ++ replies cores s.target messages⟩) rfl
  refine ⟨buf'', data, ?_⟩
  unfold handle
  refine (bind_ok sent).trans ?_
  refine served.trans (ended.trans ?_)
  rw [List.append_assoc, List.append_assoc]
  rfl

def smallSession : List Message :=
  [⟨[], .write 0x40 [35, 7] true, 43⟩, ⟨[43, 10], .read 0x40 2, 43⟩, ⟨[], .read 0 513, 43⟩, ⟨[], .core 80 2, 43⟩,
    ⟨[], .setRegister 24 [1, 2, 3, 4, 5, 6, 7, 8, 9, 10], 43⟩, ⟨[], .setRegister 16 [1, 2, 3, 4, 5, 6, 7, 8], 43⟩,
    ⟨[], .register 16, 43⟩, ⟨[], .register 57, 43⟩, ⟨[], .alive 1, 43⟩]

def smallTarget : Target := ⟨fun _ => 0, fun _ _ => 0xff, fun _ => 0, fun _ => UInt8.ofNat⟩

/-- The floating-point register is written, the instruction pointer is not. -/
theorem smallSession_served : ∃ s, handle ⟨0, 2, fun _ => 0⟩ 10 ⟨smallTarget, fun _ => 0, fun _ => 0,
      43 :: (smallSession.flatMap Message.bytes ++ ([10] ++ (frame [99] ++ []))), []⟩ = .ok () s ∧
    s.target.memory 0x41 = 7 ∧ s.target.registers 1 165 = 2 ∧ s.target.registers 1 130 = 0xff ∧
      s.output = frame (ofString "S00") ++ 43 :: frame (ofString "OK") ++ 43 :: frame (ofString "2307") ++
        43 :: frame (ofString "E00") ++ 43 :: frame (ofString "OK") ++ 43 :: frame (ofString "OK") ++
        43 :: frame (ofString "OK") ++ 43 :: frame (ofString "0001020304050607") ++
        43 :: frame (ofString "E00") ++ 43 :: frame (ofString "OK") ++ [43] := by
  have sendable : ∀ m ∈ smallSession, m.Sendable := by
    refine List.forall_mem_cons.mpr ⟨⟨nofun, Nat.le_of_ble_eq_true rfl, trivial⟩, List.forall_mem_cons.mpr
      ⟨⟨List.forall_mem_cons.mpr ⟨by decide, List.forall_mem_singleton.mpr (by decide)⟩, Nat.le_of_ble_eq_true rfl, by decide⟩,
        List.forall_mem_cons.mpr ⟨⟨nofun, Nat.le_of_ble_eq_true rfl, by decide⟩, List.forall_mem_cons.mpr
          ⟨⟨nofun, Nat.le_of_ble_eq_true rfl, by decide, by decide⟩, List.forall_mem_cons.mpr
            ⟨⟨nofun, Nat.le_of_ble_eq_true rfl, by decide⟩, List.forall_mem_cons.mpr
              ⟨⟨nofun, Nat.le_of_ble_eq_true rfl, by decide⟩, List.forall_mem_cons.mpr
                ⟨⟨nofun, Nat.le_of_ble_eq_true rfl, by decide⟩, List.forall_mem_cons.mpr
                  ⟨⟨nofun, Nat.le_of_ble_eq_true rfl, by decide⟩, List.forall_mem_singleton.mpr
                    ⟨nofun, Nat.le_of_ble_eq_true rfl, by decide⟩⟩⟩⟩⟩⟩⟩⟩⟩
  obtain ⟨buf, data, served⟩ := handle_serves (s := ⟨smallTarget, fun _ => 0, fun _ => 0,
    43 :: (smallSession.flatMap Message.bytes ++ ([10] ++ (frame [99] ++ []))), []⟩) ⟨0, 2, fun _ => 0⟩
    smallSession sendable (List.forall_mem_singleton.mpr (by decide)) false
    ⟨by decide, fun _ => (by decide : (0 : Int) ≤ coreMax)⟩ rfl (show 9 < 10 by decide)
  have target : (effects ⟨0, 2, fun _ => 0⟩ smallTarget smallSession).memory 0x41 = 7 ∧
      (effects ⟨0, 2, fun _ => 0⟩ smallTarget smallSession).registers 1 165 = 2 ∧
      (effects ⟨0, 2, fun _ => 0⟩ smallTarget smallSession).registers 1 130 = 0xff := by decide +kernel
  have text : [] ++ (frame (Request.reason.answer ⟨0, 2, fun _ => 0⟩ smallTarget) ++
      (replies ⟨0, 2, fun _ => 0⟩ smallTarget smallSession ++ [43])) =
      frame (ofString "S00") ++ 43 :: frame (ofString "OK") ++ 43 :: frame (ofString "2307") ++
        43 :: frame (ofString "E00") ++ 43 :: frame (ofString "OK") ++ 43 :: frame (ofString "OK") ++
        43 :: frame (ofString "OK") ++ 43 :: frame (ofString "0001020304050607") ++
        43 :: frame (ofString "E00") ++ 43 :: frame (ofString "OK") ++ [43] := by decide +kernel
  exact ⟨_, served, target.1, target.2.1, target.2.2, text⟩

end Sessions

end MPStuBS.DebugStub
