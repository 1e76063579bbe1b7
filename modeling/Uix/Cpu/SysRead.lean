/-
`SYS_read` on a descriptor of the console (`src/core/cpu/syscall.c`), over the keyboard and the line discipline. The
call polls the terminal and then asks for the line: 64 bits of length are cut to 32, and `tty_readline` takes one off
for the NUL.

A result of 0 does not tell whether there was no line. A line that backspaces have emptied after its end is handed out
as an empty one, and so is any line if there is room for the NUL only; the line is gone then.

- `readline_zero`: when `tty_readline` returns 0.
- `reached_fits`: the line stays within its array in every run.
- `zero_read_keeps_iff`: when a result of 0 means that nothing was consumed.
- `zero_read_drops_line`: a line read with length 1, and a line feed that was deleted.
-/
import Uix.Cpu.Fd
import Uix.Io.Keyboard

namespace Uix

/-- the keyboard and the line that is being typed -/
structure Input where
  kbd : Keyboard
  tty : Tty

namespace Input

/-- `tty_poll` -/
def ttyPoll (s : Input) : Input :=
  let (raw, kbd) := s.kbd.keyboardRead 32
  ⟨kbd, s.tty.ttyPoll raw⟩

/-- `SYS_read`: the value returned and what was stored at `rsi` -/
def sysRead (s : Input) (t : Fds) (rdi rdx : U64) : U64 × List Byte × Input :=
  if t.procFdType (Fds.intArg rdi) ≠ .consoleIn then (BitVec.ofInt 64 (-9), [], s) else
  if rdx < 1 then (0, [], s) else
  let s := s.ttyPoll
  let (n, buf, tty) := s.tty.ttyReadline (rdx.setWidth 32)
  (BitVec.ofNat 64 n, buf, { s with tty := tty })

/-- an interrupt of the keyboard, or a call by a process with the descriptors `t` -/
inductive Event where
  | irq (sc : BitVec 8)
  | read (t : Fds) (rdi rdx : U64)

def step (s : Input) : Event → Input
  | .irq sc => { s with kbd := s.kbd.keyboardIrq sc }
  | .read t rdi rdx => (s.sysRead t rdi rdx).2.2

/-- after `keyboard_init` and `tty_init` -/
def start (kbd : Keyboard) (tty : Tty) : Input := ⟨kbd.keyboardInit, tty.ttyInit⟩

def run (s : Input) (es : List Event) : Input := es.foldl step s

/-- a call that returns 0 has found no complete line after polling, and leaves what polling made -/
def ZeroKeeps (s : Input) (t : Fds) (rdi rdx : U64) : Prop :=
  (s.sysRead t rdi rdx).1 = 0 → s.ttyPoll.tty.lineReady = false ∧ (s.sysRead t rdi rdx).2.2 = s.ttyPoll

/-- a complete line is pending after polling, but it is empty or there is room for the NUL only -/
def Hidden (s : Input) (rdx : U64) : Prop :=
  s.ttyPoll.tty.lineReady = true ∧ (s.ttyPoll.tty.lineLen = 0 ∨ rdx.toNat % 2 ^ 32 = 1)

section Read

variable {s : Input} {t : Fds} {rdi rdx : U64}

/-- the number of characters that `tty_readline` hands out -/
theorem readline_zero {tty : Tty} (hready : tty.lineReady = true) (len : BitVec 32) :
    (tty.ttyReadline len).1 = 0 ↔ tty.lineLen = 0 ∨ len = 1 := by
  have hsub : (len - 1).toNat = 0 ↔ len = 1 := by
    change (len - 1).toNat = (0 : BitVec 32).toNat ↔ len = 1
    rw [BitVec.toNat_inj, sub_eq_zero]
  rw [Tty.ttyReadline, hready, Bool.not_true, if_neg Bool.false_ne_true]
  dsimp only
  rw [← hsub]
  split_ifs <;> omega

theorem readline_ready_false {tty : Tty} (hready : tty.lineReady = false) (len : BitVec 32) :
    tty.ttyReadline len = (0, [], tty) := by
  rw [Tty.ttyReadline, hready, Bool.not_false, if_pos rfl]

theorem readline_fits {tty : Tty} (h : tty.Fits) (len : BitVec 32) :
    (tty.ttyReadline len).1 ≤ 127 ∧ (tty.ttyReadline len).2.2.Fits := by
  rw [Tty.Fits, Tty.lineMax] at h
  unfold Tty.ttyReadline
  split_ifs with hready hlong
  · exact ⟨Nat.zero_le _, h⟩
  · exact ⟨show (len - 1).toNat ≤ 127 by omega, Nat.zero_le _⟩
  · exact ⟨h, Nat.zero_le _⟩

theorem ttyPoll_fits (h : s.tty.Fits) : s.ttyPoll.tty.Fits := (Tty.ttyPoll_run h _).1

theorem sysRead_eq (hfd : t.procFdType (Fds.intArg rdi) = .consoleIn) (hlen : 1 ≤ rdx) : s.sysRead t rdi rdx =
    (BitVec.ofNat 64 (s.ttyPoll.tty.ttyReadline (rdx.setWidth 32)).1, (s.ttyPoll.tty.ttyReadline (rdx.setWidth 32)).2.1,
      { s.ttyPoll with tty := (s.ttyPoll.tty.ttyReadline (rdx.setWidth 32)).2.2 }) := by
  rw [sysRead, if_neg (not_not.2 hfd), if_neg (BitVec.not_lt.2 hlen)]

/-- the call as the descriptors see it: `Fds.sysRead`, with what the keyboard has -/
theorem sysRead_fds (s : Input) (t : Fds) (rdi rdx : U64) :
    ((s.sysRead t rdi rdx).1, (s.sysRead t rdi rdx).2.1, (s.sysRead t rdi rdx).2.2.tty) =
      t.sysRead rdi rdx (s.kbd.keyboardRead 32).1 s.tty := by
  unfold sysRead Fds.sysRead
  split_ifs <;> rfl

/-- an event keeps the line within its array -/
theorem step_fits (h : s.tty.Fits) (e : Event) : (s.step e).tty.Fits := by
  cases e with
  | irq sc => exact h
  | read t rdi rdx =>
    change (s.sysRead t rdi rdx).2.2.tty.Fits
    unfold sysRead
    split_ifs with hfd hlen
    · exact h
    · exact h
    · exact (readline_fits (ttyPoll_fits h) _).2

theorem reached_fits (kbd : Keyboard) (tty : Tty) (es : List Event) : ((start kbd tty).run es).tty.Fits := by
  have hrun : ∀ s : Input, s.tty.Fits → (s.run es).tty.Fits := by
    induction es with
    | nil => exact fun s h => h
    | cons e es ih => exact fun s h => ih _ (step_fits h e)
  exact hrun _ (Nat.zero_le _)

end Read

/-- **A result of 0.** After any keyboard input and any calls, a read of at least one byte on a console descriptor keeps
the pending line when it returns 0 exactly if no complete line is hidden from it. -/
theorem zero_read_keeps_iff (kbd : Keyboard) (tty : Tty) (es : List Event) (t : Fds) (rdi rdx : U64)
    (hfd : t.procFdType (Fds.intArg rdi) = .consoleIn) (hlen : 1 ≤ rdx) :
    ((start kbd tty).run es).ZeroKeeps t rdi rdx ↔ ¬ ((start kbd tty).run es).Hidden rdx := by
  have hfits := reached_fits kbd tty es
  generalize (start kbd tty).run es = s at hfits
  have hwidth : rdx.setWidth 32 = 1 ↔ rdx.toNat % 2 ^ 32 = 1 := by
    rw [← BitVec.toNat_inj, BitVec.toNat_setWidth]
    rfl
  rw [ZeroKeeps, Hidden, sysRead_eq hfd hlen, ← hwidth]
  dsimp only
  have hsmall := (readline_fits (ttyPoll_fits hfits) (rdx.setWidth 32)).1
  have hzero : BitVec.ofNat 64 (s.ttyPoll.tty.ttyReadline (rdx.setWidth 32)).1 = 0 ↔
      (s.ttyPoll.tty.ttyReadline (rdx.setWidth 32)).1 = 0 := by
    rw [← BitVec.toNat_inj, BitVec.toNat_ofNat, Nat.mod_eq_of_lt (by omega)]
    rfl
  rw [hzero]
  cases hready : s.ttyPoll.tty.lineReady with
  | false =>
    rw [readline_ready_false hready]
    exact iff_of_true (fun _ => ⟨rfl, rfl⟩) fun hc => absurd hc.1 Bool.false_ne_true
  | true =>
    rw [readline_zero hready]
    constructor
    · rintro hkeeps ⟨-, hc⟩
      exact absurd (hkeeps hc).1 (by decide)
    · intro hno hc
      exact absurd ⟨rfl, hc⟩ hno

/-- nothing typed, nothing stored -/
def blank : Input := start ⟨fun _ => 0, 0, 0⟩ ⟨fun _ => 0, 0, false, []⟩

/-- **Lines lost to a read that returns 0**: `a` and a line feed, read with length 1; a line feed and a backspace, read
with length 64. -/
theorem zero_read_drops_line :
    (∃ s, s = blank.run [.irq 0x1E, .irq 0x1C] ∧ (s.sysRead .stdio 0 1).1 = 0 ∧ s.ttyPoll.tty.content = [0x61, 0x0A] ∧
      s.ttyPoll.tty.lineReady = true ∧ (s.sysRead .stdio 0 1).2.2.tty.lineReady = false) ∧
    ∃ s, s = blank.run [.irq 0x1C, .irq 0x0E] ∧ (s.sysRead .stdio 0 64).1 = 0 ∧ s.ttyPoll.tty.lineReady = true ∧
      (s.sysRead .stdio 0 64).2.2.tty.lineReady = false := by
  refine ⟨⟨_, rfl, ?_, ?_, ?_, ?_⟩, _, rfl, ?_, ?_, ?_⟩ <;> decide +kernel

/-- `a`, a read, `b`: the next read returns 0 and keeps `ab`; once the line is complete a read returns it -/
theorem zero_read_keeps_typed : ∃ s, s = blank.run [.irq 0x1E, .read .stdio 0 64, .irq 0x30] ∧ s.ZeroKeeps .stdio 0 64 ∧
    (s.sysRead .stdio 0 64).1 = 0 ∧ (s.sysRead .stdio 0 64).2.2.tty.content = [0x61, 0x62] ∧
    (((s.step (.read .stdio 0 64)).step (.irq 0x1C)).sysRead .stdio 0 64).2.1 = [0x61, 0x62, 0x0A, 0] := by
  refine ⟨_, rfl, ?_, by decide +kernel, by decide +kernel, by decide +kernel⟩
  refine (zero_read_keeps_iff ⟨fun _ => 0, 0, 0⟩ ⟨fun _ => 0, 0, false, []⟩ _ .stdio 0 64 (by decide) (by decide)).2 ?_
  rintro ⟨hready, -⟩
  revert hready
  decide +kernel

end Input

end Uix
