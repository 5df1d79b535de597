import MPStuBS.Run
import Mathlib.Logic.Function.Basic

/-! The two buffers of `device/graphics.cc`: an application draws and switches them, a timer copies the front buffer
to the video memory, interleaved at every access of what they share. -/
namespace MPStuBS

abbrev Frame := Nat → UInt8

/-- The memory of the screen and of the two buffers; `framebuffer` is the buffer that the printer draws on. -/
structure Graphics where
  size : Nat
  screen : Frame
  buffer : Fin 2 → Frame
  framebuffer : Fin 2
  scanoutBuffer : Fin 2
  refresh : Bool

namespace Graphics

def other (i : Fin 2) : Fin 2 := ⟨1 - i.val, Nat.lt_succ_of_le (Nat.sub_le 1 i.val)⟩

/-- The application in `switchBuffers`, where it has seen that there is nothing to refresh. -/
inductive SwitchPc where
  | idle
  | readScanout
  | setFramebuffer (front : Fin 2)
  | readScanoutAgain
  | setScanout (front : Fin 2)
  | setRefresh

/-- The timer in `scanoutFrontbuffer` and in its `memcpy`, after it has seen that there is something to refresh. -/
inductive ScanoutPc where
  | idle
  | readScanout
  | load (front : Fin 2) (i : Nat)
  | store (front : Fin 2) (i : Nat) (value : UInt8)
  | clearRefresh

/-- Both parties; the frames that were drawn when a call of `switchBuffers` began that returns true, and the number
of those that were copied; and for each call that returns false how many were waiting. -/
structure Shared where
  graphics : Graphics
  switching : SwitchPc
  scanout : ScanoutPc
  switched : List Frame
  shown : Nat
  refused : List Nat

/-- The application draws a byte, calls `switchBuffers` or goes on with it; the timer calls `scanoutFrontbuffer` or
goes on with it. -/
inductive Access where
  | draw (offset : Nat) (value : UInt8)
  | switchBuffers
  | application
  | scanoutFrontbuffer
  | timer

namespace Shared

variable (s : Shared)

/-- After `init`. -/
def start (size : Nat) (screen : Frame) (buffer : Fin 2 → Frame) : Shared :=
  ⟨⟨size, screen, buffer, ⟨1, Nat.one_lt_two⟩, ⟨0, Nat.zero_lt_two⟩, false⟩, .idle, .idle, [], 0, []⟩

def stepSwitch : Option Shared :=
  match s.switching with
  | .idle => none
  | .readScanout => some { s with switching := .setFramebuffer s.graphics.scanoutBuffer }
  | .setFramebuffer front => some { s with
      switching := .readScanoutAgain
      graphics := { s.graphics with framebuffer := front } }
  | .readScanoutAgain => some { s with switching := .setScanout s.graphics.scanoutBuffer }
  | .setScanout front => some { s with
      switching := .setRefresh
      graphics := { s.graphics with scanoutBuffer := other front } }
  | .setRefresh => some { s with
      switching := .idle
      graphics := { s.graphics with refresh := true } }

def stepScanout : Option Shared :=
  match s.scanout with
  | .idle => none
  | .readScanout => some { s with scanout := .load s.graphics.scanoutBuffer 0 }
  | .load front i =>
    if i ≠ s.graphics.size then some { s with scanout := .store front i (s.graphics.buffer front i) }
    else some { s with scanout := .clearRefresh }
  | .store front i value => some { s with
      scanout := .load front (i + 1)
      graphics := { s.graphics with screen := Function.update s.graphics.screen i value } }
  | .clearRefresh => some { s with
      scanout := .idle
      graphics := { s.graphics with refresh := false }
      shown := s.shown + 1 }

def step : Access → Option Shared
  | .draw offset value =>
    match s.switching with
    | .idle => some { s with
        graphics := { s.graphics with
          buffer := Function.update s.graphics.buffer s.graphics.framebuffer
            (Function.update (s.graphics.buffer s.graphics.framebuffer) offset value) } }
    | _ => none
  | .switchBuffers =>
    match s.switching with
    | .idle =>
      if s.graphics.refresh then some { s with refused := s.refused ++ [s.switched.length - s.shown] }
      else some { s with
        switching := .readScanout
        switched := s.switched ++ [s.graphics.buffer s.graphics.framebuffer] }
    | _ => none
  | .application => s.stepSwitch
  | .scanoutFrontbuffer =>
    match s.scanout with
    | .idle => if s.graphics.refresh then some { s with scanout := .readScanout } else some s
    | _ => none
  | .timer => s.stepScanout

end Shared

section Assertions

variable (g : Graphics)

def SwitchPc.busy : SwitchPc → Bool
  | .idle => false
  | _ => true

/-- What the application relies on at its position. -/
def Switching : SwitchPc → Prop
  | .idle => g.framebuffer = other g.scanoutBuffer
  | .readScanout => g.framebuffer = other g.scanoutBuffer
  | .setFramebuffer front => g.framebuffer = other g.scanoutBuffer ∧ front = g.scanoutBuffer
  | .readScanoutAgain => g.framebuffer = g.scanoutBuffer
  | .setScanout front => g.framebuffer = g.scanoutBuffer ∧ front = g.scanoutBuffer
  | .setRefresh => g.framebuffer = other g.scanoutBuffer

/-- The buffer with the frame that waits, at the positions where there is one. -/
def waiting : SwitchPc → Fin 2
  | .idle | .setRefresh => g.scanoutBuffer
  | _ => other g.scanoutBuffer

/-- The first part of the screen has a frame and the rest the one before it. -/
def Mixed (n : Nat) (new old : Frame) : Prop := ∀ i < g.size, g.screen i = if i < n then new i else old i

/-- What the timer relies on at its position. -/
def Scanning (new old : Frame) : ScanoutPc → Prop
  | .idle => g.Mixed 0 new old
  | .readScanout => g.refresh = true ∧ g.Mixed 0 new old
  | .load front i => g.refresh = true ∧ front = g.scanoutBuffer ∧ i ≤ g.size ∧ g.Mixed i new old
  | .store front i value =>
    g.refresh = true ∧ front = g.scanoutBuffer ∧ i < g.size ∧ value = new i ∧ g.Mixed i new old
  | .clearRefresh => g.refresh = true ∧ g.Mixed g.size new old

end Assertions

namespace Shared

/-- The frames in their order, after what the screen shows at the start. -/
def frame (screen : Frame) (switched : List Frame) (k : Nat) : Frame := (screen :: switched).getD k screen

structure Inv (screen : Frame) (s : Shared) : Prop where
  switching : Switching s.graphics s.switching
  unseen : s.switching.busy = true → s.graphics.refresh = false
  count : s.switched.length = s.shown + if s.switching.busy || s.graphics.refresh then 1 else 0
  waiting : (s.switching.busy || s.graphics.refresh) = true →
    s.graphics.buffer (s.graphics.waiting s.switching) = frame screen s.switched (s.shown + 1)
  scanning : Scanning s.graphics (frame screen s.switched (s.shown + 1)) (frame screen s.switched s.shown) s.scanout
  refused : ∀ n ∈ s.refused, n = 1

variable {screen : Frame} {s s' : Shared}

theorem start_inv (size : Nat) (screen : Frame) (buffer : Fin 2 → Frame) :
    (start size screen buffer).Inv screen where
  switching := rfl
  unseen busy := by cases busy
  count := rfl
  waiting wait := by cases wait
  scanning _ _ := rfl
  refused n member := by cases member

theorem other_ne (i : Fin 2) : other i ≠ i := by
  revert i
  decide

theorem other_other (i : Fin 2) : other (other i) = i := by
  revert i
  decide

theorem Scanning.idle {g : Graphics} {new old : Frame} {pc : ScanoutPc} (scanning : Scanning g new old pc)
    (seen : g.refresh = false) : pc = .idle := by
  cases pc with
  | idle => rfl
  | _ => exact absurd (seen.symm.trans scanning.1) Bool.false_ne_true

theorem Inv.stepSwitch (inv : s.Inv screen) (stepped : s.stepSwitch = some s') : s'.Inv screen := by
  obtain ⟨switching, unseen, count, waiting, scanning, refused⟩ := inv
  cases position : s.switching with
  | idle => simp [Shared.stepSwitch, position] at stepped
  | readScanout =>
    rw [position] at switching unseen count waiting
    simp only [Shared.stepSwitch, position, Option.some.injEq] at stepped
    exact stepped ▸ ⟨⟨switching, rfl⟩, unseen, count, waiting, scanning, refused⟩
  | setFramebuffer front =>
    rw [position] at switching unseen count waiting
    simp only [Shared.stepSwitch, position, Option.some.injEq] at stepped
    have still := Scanning.idle scanning (unseen rfl)
    rw [still] at scanning
    subst stepped
    refine ⟨switching.2, unseen, count, waiting, ?_, refused⟩
    rw [still]
    exact scanning
  | readScanoutAgain =>
    rw [position] at switching unseen count waiting
    simp only [Shared.stepSwitch, position, Option.some.injEq] at stepped
    exact stepped ▸ ⟨⟨switching, rfl⟩, unseen, count, waiting, scanning, refused⟩
  | setScanout front =>
    rw [position] at switching unseen count waiting
    simp only [Shared.stepSwitch, position, Option.some.injEq] at stepped
    obtain ⟨drawn, rfl⟩ := switching
    have still := Scanning.idle scanning (unseen rfl)
    rw [still] at scanning
    subst stepped
    refine ⟨drawn.trans (other_other _).symm, unseen, count, waiting, ?_, refused⟩
    rw [still]
    exact scanning
  | setRefresh =>
    rw [position] at switching unseen count waiting
    simp only [Shared.stepSwitch, position, Option.some.injEq] at stepped
    have still := Scanning.idle scanning (unseen rfl)
    rw [still] at scanning
    subst stepped
    refine ⟨switching, fun busy => (nomatch busy), count, waiting, ?_, refused⟩
    rw [still]
    exact scanning

theorem idle_of_refresh (unseen : s.switching.busy = true → s.graphics.refresh = false)
    (fresh : s.graphics.refresh = true) : s.switching = .idle := by
  cases position : s.switching with
  | idle => rfl
  | _ =>
    rw [position] at unseen
    exact absurd ((unseen rfl).symm.trans fresh) Bool.false_ne_true

theorem Mixed.store {g : Graphics} {i : Nat} {new old : Frame} (mixed : g.Mixed i new old) :
    Mixed { g with screen := Function.update g.screen i (new i) } (i + 1) new old := by
  intro j inside
  by_cases this : j = i
  · subst this
    rw [if_pos (Nat.lt_succ_self j)]
    exact Function.update_self ..
  · have same : j < i + 1 ↔ j < i := by omega
    rw [if_congr same rfl rfl, ← mixed j inside]
    exact Function.update_of_ne this ..

theorem Inv.stepScanout (inv : s.Inv screen) (stepped : s.stepScanout = some s') : s'.Inv screen := by
  obtain ⟨switching, unseen, count, waiting, scanning, refused⟩ := inv
  cases position : s.scanout with
  | idle => simp [Shared.stepScanout, position] at stepped
  | readScanout =>
    rw [position] at scanning
    simp only [Shared.stepScanout, position, Option.some.injEq] at stepped
    exact stepped ▸ ⟨switching, unseen, count, waiting, ⟨scanning.1, rfl, Nat.zero_le _, scanning.2⟩, refused⟩
  | load front i =>
    rw [position] at scanning
    obtain ⟨fresh, rfl, bound, mixed⟩ := scanning
    have idle := idle_of_refresh unseen fresh
    simp only [Shared.stepScanout, position] at stepped
    split at stepped
    · cases stepped
      rename_i more
      refine ⟨switching, unseen, count, waiting, ⟨fresh, rfl, Nat.lt_of_le_of_ne bound more, ?_, mixed⟩, refused⟩
      rw [fresh, Bool.or_true, idle] at waiting
      exact congrFun (waiting rfl) i
    · cases stepped
      rename_i whole
      exact ⟨switching, unseen, count, waiting, ⟨fresh, not_not.mp whole ▸ mixed⟩, refused⟩
  | store front i value =>
    rw [position] at scanning
    obtain ⟨fresh, front', inside, rfl, mixed⟩ := scanning
    simp only [Shared.stepScanout, position, Option.some.injEq] at stepped
    subst stepped
    exact ⟨switching, unseen, count, waiting, ⟨fresh, front', inside, Mixed.store mixed⟩, refused⟩
  | clearRefresh =>
    rw [position] at scanning
    simp only [Shared.stepScanout, position, Option.some.injEq] at stepped
    subst stepped
    have idle := idle_of_refresh unseen scanning.1
    rw [scanning.1, Bool.or_true, if_pos rfl] at count
    refine ⟨switching, fun _ => rfl, ?_, ?_, ?_, refused⟩
    · rw [idle]
      exact count
    · rw [idle]
      exact fun wait => nomatch wait
    · intro i inside
      exact (scanning.2 i inside).trans (if_pos inside)

theorem frame_append {switched : List Frame} (new : Frame) {k : Nat} (old : k ≤ switched.length) :
    frame screen (switched ++ [new]) k = frame screen switched k := by
  unfold frame
  rw [List.getD_eq_getElem?_getD, List.getD_eq_getElem?_getD, ← List.cons_append,
    List.getElem?_append_left (Nat.lt_succ_of_le old)]

theorem frame_last (switched : List Frame) (new : Frame) :
    frame screen (switched ++ [new]) (switched.length + 1) = new := by
  unfold frame
  rw [List.getD_eq_getElem?_getD, List.getElem?_cons_succ, List.getElem?_concat_length, Option.getD_some]

/-- What no completed frame of the run changes for the timer. -/
theorem Scanning.append {pc : ScanoutPc} {new old new' old' : Frame} {g : Graphics} (scanning : Scanning g new old pc)
    (seen : g.refresh = false) (same : old' = old) : Scanning g new' old' pc := by
  obtain rfl := Scanning.idle scanning seen
  subst same
  exact scanning

theorem Inv.step (inv : s.Inv screen) (a : Access) (stepped : s.step a = some s') : s'.Inv screen := by
  cases a with
  | application => exact inv.stepSwitch stepped
  | timer => exact inv.stepScanout stepped
  | draw offset value =>
    obtain ⟨switching, unseen, count, waiting, scanning, refused⟩ := inv
    cases position : s.switching with
    | idle =>
      simp only [Shared.step, position, Option.some.injEq] at stepped
      rw [position] at switching unseen count waiting
      have apart : s.graphics.scanoutBuffer ≠ s.graphics.framebuffer := by
        rw [show s.graphics.framebuffer = other s.graphics.scanoutBuffer from switching]
        exact (other_ne _).symm
      subst stepped
      refine ⟨switching, unseen, count, fun wait => ?_, ?_, refused⟩
      · exact (Function.update_of_ne apart ..).trans (waiting wait)
      · cases at' : s.scanout with
        | _ => rw [at'] at scanning; exact scanning
    | _ => simp [Shared.step, position] at stepped
  | switchBuffers =>
    obtain ⟨switching, unseen, count, waiting, scanning, refused⟩ := inv
    cases position : s.switching with
    | idle =>
      rw [position] at switching unseen count waiting
      simp only [Shared.step, position] at stepped
      split at stepped
      · cases stepped
        rename_i seen
        rw [seen, Bool.or_true, if_pos rfl] at count
        refine ⟨switching, unseen, ?_, waiting, scanning, ?_⟩
        · rw [count, seen, Bool.or_true, if_pos rfl]
        · intro n member
          obtain before | now := List.mem_append.mp member
          · exact refused n before
          · rw [List.mem_singleton.mp now, count, Nat.add_sub_cancel_left]
      · cases stepped
        rename_i free
        have seen := eq_false_of_ne_true free
        rw [seen] at count waiting
        have all : s.shown = s.switched.length := count.symm
        refine ⟨switching, fun _ => seen, ?_, fun _ => ?_, ?_, refused⟩
        · rw [List.length_append, count]
          rfl
        · have framebuffer : other s.graphics.scanoutBuffer = s.graphics.framebuffer := Eq.symm switching
          dsimp only [Graphics.waiting]
          rw [all, frame_last, framebuffer]
        · exact Scanning.append scanning seen (frame_append _ (Nat.le_of_eq all))
    | _ => simp [Shared.step, position] at stepped
  | scanoutFrontbuffer =>
    obtain ⟨switching, unseen, count, waiting, scanning, refused⟩ := inv
    cases position : s.scanout with
    | idle =>
      simp only [Shared.step, position] at stepped
      split at stepped
      · cases stepped
        rename_i fresh
        rw [position] at scanning
        exact ⟨switching, unseen, count, waiting, ⟨fresh, scanning⟩, refused⟩
      · cases stepped
        exact ⟨switching, unseen, count, waiting, scanning, refused⟩
    | _ => simp [Shared.step, position] at stepped

theorem step_size (a : Access) (stepped : s.step a = some s') : s'.graphics.size = s.graphics.size := by
  cases a <;> simp only [Shared.step, Shared.stepSwitch, Shared.stepScanout] at stepped <;> grind

theorem Scanning.mixed {g : Graphics} {new old : Frame} {pc : ScanoutPc} (scanning : Scanning g new old pc) :
    ∃ n, g.Mixed n new old := by
  cases pc with
  | idle => exact ⟨0, scanning⟩
  | readScanout => exact ⟨0, scanning.2⟩
  | load front i => exact ⟨i, scanning.2.2.2⟩
  | store front i value => exact ⟨i, scanning.2.2.2.2⟩
  | clearRefresh => exact ⟨g.size, scanning.2⟩

/-- However the accesses interleave: the frames come to the screen in their order and each of them, between two
calls of `scanoutFrontbuffer` it shows the frame that was last copied, and during a call the first part of it is from
the next frame; `switchBuffers` refuses exactly while a frame waits, and nothing is drawn on the front buffer. -/
theorem run_shows (size : Nat) (screen : Frame) (buffer : Fin 2 → Frame) (accesses : List Access)
    (run : Run.exec step (start size screen buffer) accesses = some s) :
    (s.switched.length = s.shown ∨ s.switched.length = s.shown + 1) ∧
      (s.scanout = .idle → ∀ i < size, s.graphics.screen i = frame screen s.switched s.shown i) ∧
      (∃ n, ∀ i < size, s.graphics.screen i =
        if i < n then frame screen s.switched (s.shown + 1) i else frame screen s.switched s.shown i) ∧
      (∀ n ∈ s.refused, n = 1) ∧
      (s.switching = .idle → s.graphics.framebuffer ≠ s.graphics.scanoutBuffer) := by
  have inv : s.Inv screen :=
    Run.invariant (Inv screen) (fun _ a _ inv stepped => inv.step a stepped) run (start_inv size screen buffer)
  have same : s.graphics.size = size :=
    Run.invariant (fun s => s.graphics.size = size) (fun _ a _ same stepped => (step_size a stepped).trans same) run rfl
  refine ⟨?_, fun idle i inside => ?_, ?_, inv.refused, fun idle => ?_⟩
  · rw [inv.count]
    split
    · exact .inr rfl
    · exact .inl rfl
  · have scanning := inv.scanning
    rw [idle] at scanning
    exact scanning i (same ▸ inside)
  · exact same ▸ Scanning.mixed inv.scanning
  · have switching := inv.switching
    rw [idle] at switching
    exact fun equal => other_ne _ (Eq.trans switching.symm equal)

/-- What makes a drawn frame wait, and what copies one of two bytes. -/
def handOver : List Access := .switchBuffers :: List.replicate 5 .application
def copyOver : List Access := .scanoutFrontbuffer :: List.replicate 7 .timer

/-- A screen of two bytes; while the first frame is copied, the application already draws the next one, and is
refused until the copy is complete. -/
def dotAccesses : List Access :=
  [.draw 0 7, .draw 1 9] ++ handOver ++ copyOver.take 4 ++ [.draw 0 8, .draw 1 6, .switchBuffers] ++ copyOver.drop 4 ++
    handOver ++ copyOver

theorem dots_show : ∃ s, Run.exec step (start 2 (fun _ => 0) fun _ _ => 0) dotAccesses = some s ∧ s.shown = 2 ∧
    s.refused = [1] ∧ s.graphics.screen 0 = 8 ∧ s.graphics.screen 1 = 6 := by
  obtain ⟨-, shows, -⟩ := run_shows 2 (fun _ => 0) (fun _ _ => 0) dotAccesses rfl
  exact ⟨_, rfl, rfl, rfl, shows rfl 0 (by decide), shows rfl 1 (by decide)⟩

end Shared

end Graphics

end MPStuBS
